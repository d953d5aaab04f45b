import LazyGrammar.Rule.Info

/-!
# LazyGrammar.Rule.Error

**Parse failures.** A failure says how many tokens were consumed before it and for
which reason the rule could not go on. `ParseErrors` keeps the failures that got
furthest: it is never empty, and merging a failure into it drops whatever made
less progress.
-/

namespace LazyGrammar

variable {τ υ : Type}

/-- Why a rule fails. -/
inductive Reason (τ : Type)
  /-- A token stands where the rule accepts others. -/
  | unexpected (found : τ)
  /-- The input ends where the rule needs a token. -/
  | unexpectedEnd
  /-- A token stands where the input should end. -/
  | expectedEnd (found : τ)
  /-- The rule was entered again where it had been entered already. -/
  | leftRecursion (rule : RuleInfo)
  deriving DecidableEq, Repr, Inhabited

/-- A failure: the number of tokens before it, and its reason. -/
structure ParseError (τ : Type) where
  consumed : Nat
  reason : Reason τ
  deriving DecidableEq, Repr, Inhabited

namespace Reason

/-- The offending token, where there is one. -/
def found : Reason τ → Option τ
  | .unexpected t | .expectedEnd t => some t
  | .unexpectedEnd | .leftRecursion _ => none

/-- Whether the reason blames the grammar instead of the input. -/
def isLeftRecursion : Reason τ → Bool
  | .leftRecursion _ => true
  | _ => false

/-- Another view of the offending token. -/
def mapToken (f : τ → υ) : Reason τ → Reason υ
  | .unexpected t => .unexpected (f t)
  | .unexpectedEnd => .unexpectedEnd
  | .expectedEnd t => .expectedEnd (f t)
  | .leftRecursion rule => .leftRecursion rule

/-- The text of a reason, given the text of a token. -/
def message (text : τ → String) : Reason τ → String
  | .unexpected t => "Unexpected: " ++ text t
  | .unexpectedEnd => "Unexpected end of input"
  | .expectedEnd t => "Expected end of input, found: " ++ text t
  | .leftRecursion _ => "Left recursion detected"

/-- Equality of reasons, where rules are compared by identity. -/
def same [BEq τ] : Reason τ → Reason τ → Bool
  | .unexpected t, .unexpected u => t == u
  | .unexpectedEnd, .unexpectedEnd => true
  | .expectedEnd t, .expectedEnd u => t == u
  | .leftRecursion a, .leftRecursion b => a.sameRule b
  | _, _ => false

end Reason

namespace ParseError

/-- The offending token, where there is one. -/
def found (e : ParseError τ) : Option τ := e.reason.found

/-- Whether the failure blames the grammar instead of the input. -/
def isLeftRecursion (e : ParseError τ) : Bool := e.reason.isLeftRecursion

/-- The text of a failure, given the text of a token. -/
def message (text : τ → String) (e : ParseError τ) : String := e.reason.message text

/-- Another view of the offending token. -/
def mapToken (f : τ → υ) (e : ParseError τ) : ParseError υ :=
  ⟨e.consumed, e.reason.mapToken f⟩

/-- Equality of failures, where rules are compared by identity. -/
def same [BEq τ] (a b : ParseError τ) : Bool :=
  a.consumed == b.consumed && a.reason.same b.reason

end ParseError

/-- One or more failures, all after the same number of tokens. -/
structure ParseErrors (τ : Type) where
  first : ParseError τ
  others : Array (ParseError τ)
  deriving DecidableEq, Repr, Inhabited

namespace ParseErrors

/-- A single failure. -/
def single (e : ParseError τ) : ParseErrors τ := ⟨e, #[]⟩

/-- The failures in the order in which they were found. -/
def toList (es : ParseErrors τ) : List (ParseError τ) := es.first :: es.others.toList

/-- How many tokens all of the failures are after. -/
def consumed (es : ParseErrors τ) : Nat := es.first.consumed

/-- Whether the failures blame the grammar instead of the input. -/
def isLeftRecursion (es : ParseErrors τ) : Bool := es.first.isLeftRecursion

/-- Takes one more failure into account: one that got further replaces all others,
one that got as far joins them, any other is dropped. -/
def merge (es : ParseErrors τ) (e : ParseError τ) : ParseErrors τ :=
  match compare e.consumed es.consumed with
  | .gt => single e
  | .eq => ⟨es.first, es.others.push e⟩
  | .lt => es

/-- The texts of the failures. -/
def messages (text : τ → String) (es : ParseErrors τ) : List String :=
  es.toList.map (·.message text)

/-- The texts of the failures, one on a line. -/
def render (text : τ → String) (es : ParseErrors τ) : String :=
  "\n".intercalate (es.messages text)

@[simp] theorem toList_single (e : ParseError τ) : (single e).toList = [e] := rfl

theorem toList_ne_nil (es : ParseErrors τ) : es.toList ≠ [] := by simp [toList]

/-- Merging in terms of the list of failures. -/
theorem toList_merge (es : ParseErrors τ) (e : ParseError τ) :
    (es.merge e).toList =
      if es.consumed < e.consumed then [e]
      else if e.consumed = es.consumed then es.toList ++ [e]
      else es.toList := by
  unfold merge
  rcases Nat.lt_trichotomy e.consumed es.consumed with h | h | h
  · have : compare e.consumed es.consumed = .lt := Nat.compare_eq_lt.2 h
    simp [this, Nat.not_lt.2 (Nat.le_of_lt h), Nat.ne_of_lt h]
  · simp [h, toList]
  · have : compare e.consumed es.consumed = .gt := Nat.compare_eq_gt.2 h
    simp [this, h]

end ParseErrors

end LazyGrammar

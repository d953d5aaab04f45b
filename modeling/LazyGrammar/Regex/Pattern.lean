import LazyGrammar.Regex.Matcher
import LazyGrammar.Regex.PatternReader

/-!
# LazyGrammar.Regex.Pattern

**Patterns ready for use**: read from their notation and compiled. A pattern that is
not well formed has no program, and neither has one whose program would be too large.
-/

namespace LazyGrammar.Regex

/-- A compiled pattern. -/
structure Pattern where
  program : Program
  /-- The number of remembered groups. -/
  captures : Nat
  names : List (String × Nat)
  deriving Inhabited

namespace Pattern

/-- The most instructions that a program may have. -/
def weightBound : Nat := 10 * 1024 * 1024 / 24

/-- The pattern that a text stands for. -/
def compile? (text : String) : Option Pattern :=
  match readPattern text.toList with
  | some read =>
    if read.term.weight > weightBound then none
    else some ⟨.ofTerm read.term, read.captures, read.names⟩
  | none => none

/-- The preferred match at the start of a text, given the character before it. -/
def search (p : Pattern) (before : Option Char) (text : List Char) : Option Match :=
  matchAt p.program before text

end Pattern

end LazyGrammar.Regex

import LazyGrammar.Regex.Program
import LazyGrammar.Text.Property

/-!
# LazyGrammar.Regex.Matcher

**Matching at a place.** The matcher follows all ways through a program at once, in
order of preference, one character at a time. Of two ways that reach the same
instruction at the same place the preferred one is kept, so the work for a character
is bounded by the size of the program, and the first way that accepts is the match.

A match always starts at the place itself. Conditions, however, see the character
before the place.
-/

namespace LazyGrammar.Regex

/-! ### Places -/

/-- What conditions can see of a place: the characters around it. -/
structure Surroundings where
  before : Option Char
  after : Option Char
  deriving DecidableEq, Repr, Inhabited

/-- Word characters, ready for look-up. -/
def wordChars : Text.Ranges := (CharSet.ofRanges Text.word).toRanges

/-- Whether there is a word character. -/
def isWord (unicode : Bool) : Option Char → Bool
  | some c => if unicode then wordChars.has c else c.isAlphanum || c == '_'
  | none => false

/-- Whether a condition holds. -/
def Look.holds (s : Surroundings) : Look → Bool
  | .textStart => s.before.isNone
  | .textEnd => s.after.isNone
  | .lineStart => s.before.isNone || s.before == some '\n'
  | .lineEnd => s.after.isNone || s.after == some '\n'
  | .returnLineStart =>
    s.before.isNone || s.before == some '\n'
      || (s.before == some '\r' && s.after != some '\n')
  | .returnLineEnd =>
    s.after.isNone || s.after == some '\r'
      || (s.after == some '\n' && s.before != some '\r')
  | .wordEdge unicode => isWord unicode s.before != isWord unicode s.after
  | .noWordEdge unicode => isWord unicode s.before == isWord unicode s.after

/-! ### Ways through a program -/

/-- A way through a program: the instruction it is at, and what its slots hold, the
latest first. -/
structure Way where
  address : Nat
  slots : List (Nat × Nat)
  deriving Repr, Inhabited

/-- Ways that wait for a character or accept, in order of preference, and the
instructions that have been reached. -/
structure Front where
  ways : Array Way
  reached : Array Bool
  deriving Repr, Inhabited

/-- No ways. -/
def Front.empty (p : Program) : Front := ⟨#[], Array.replicate p.code.size false⟩

/-- Follows ways, the first one first, up to instructions that take a character or
accept. -/
def Front.follow (p : Program) (s : Surroundings) (position : Nat) :
    Nat → List Way → Front → Front
  | 0, _, front => front
  | _, [], front => front
  | fuel + 1, way :: rest, front =>
    if front.reached.getD way.address true then front.follow p s position fuel rest
    else
      let front := { front with reached := front.reached.setIfInBounds way.address true }
      match p.code[way.address]? with
      | none => front.follow p s position fuel rest
      | some (.chars _ _) | some .accept =>
        { front with ways := front.ways.push way }.follow p s position fuel rest
      | some (.fork first second) =>
        front.follow p s position fuel ({ way with address := first }
          :: { way with address := second } :: rest)
      | some (.save slot next) =>
        front.follow p s position fuel (⟨next, (slot, position) :: way.slots⟩ :: rest)
      | some (.look condition next) =>
        if condition.holds s then front.follow p s position fuel ({ way with address := next } :: rest)
        else front.follow p s position fuel rest

/-- Adds a way: enough fuel, since every instruction is followed at most once. -/
def Front.add (p : Program) (s : Surroundings) (position : Nat) (front : Front) (way : Way) :
    Front :=
  front.follow p s position (2 * p.code.size + 2) [way]

/-! ### Matches -/

/-- A match: its length in characters, and what the slots hold. -/
structure Match where
  length : Nat
  slots : List (Nat × Nat)
  deriving Repr, Inhabited

/-- What some ways come to with the next character: the ways after it, and a match
here if one of them accepts. Ways after one that accepts are dropped. -/
def Front.advance (p : Program) (s : Surroundings) (position : Nat) (next : Option Char) :
    List Way → Front → Front × Option Match
  | [], front => (front, none)
  | way :: rest, front =>
    match p.code[way.address]? with
    | some .accept => (front, some ⟨position, way.slots⟩)
    | some (.chars set target) =>
      match next with
      | some c =>
        let front := if set.has c then front.add p s (position + 1) { way with address := target }
          else front
        front.advance p s position next rest
      | none => front.advance p s position next rest
    | _ => front.advance p s position next rest

/-- Goes on from some ways at a position. `found` is the match that any match of a
later way replaces. -/
def scan (p : Program) (position : Nat) (ways : List Way) (found : Option Match) :
    List Char → Option Match
  | [] => ((Front.empty p).advance p default position none ways).2.orElse fun _ => found
  | c :: rest =>
    if ways.isEmpty then found
    else
      let (front, here) := (Front.empty p).advance p ⟨some c, rest.head?⟩ position (some c) ways
      scan p (position + 1) front.ways.toList (here.orElse fun _ => found) rest

/-- The preferred match at the start of a text, given the character before it. -/
def matchAt (p : Program) (before : Option Char) (text : List Char) : Option Match :=
  let front := (Front.empty p).add p ⟨before, text.head?⟩ 0 ⟨p.start, []⟩
  scan p 0 front.ways.toList none text

/-- What a remembered group matched, as a part of the matched text. -/
def Match.group? (m : Match) (index : Nat) (text : List Char) : Option (List Char) :=
  if index = 0 then some (text.take m.length)
  else do
    let start ← m.slots.lookup (2 * index)
    let stop ← m.slots.lookup (2 * index + 1)
    return (text.drop start).take (stop - start)

end LazyGrammar.Regex

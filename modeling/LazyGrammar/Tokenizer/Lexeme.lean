import LazyGrammar.Regex.Pattern
import LazyGrammar.Tokenizer.Basic
import LazyGrammar.Value

/-!
# LazyGrammar.Tokenizer.Lexeme

**Tokens from patterns in the usual notation.** A lexeme is the matched text with its
place and its remembered groups; a `Construction` says which value it becomes.
`Tokenizer.ofPatterns` makes a tokenizer of written patterns, or names the first one
that is not well formed.
-/

namespace LazyGrammar

/-- The text that a pattern matched. -/
structure Lexeme where
  text : List Char
  /-- The number of bytes before the text, and up to its end. -/
  start : Nat
  stop : Nat
  pattern : Regex.Pattern
  found : Regex.Match

namespace Lexeme

/-- The text of a remembered group, if it took part in the match. Group zero is the
whole match. -/
def group? (x : Lexeme) (index : Nat) : Option (List Char) := x.found.group? index x.text

/-- The text of a remembered group by name. -/
def named? (x : Lexeme) (name : String) : Option (List Char) :=
  (x.pattern.names.lookup name).bind x.group?

end Lexeme

/-- The choice of a remembered group. -/
inductive GroupKey
  | index (n : Nat)
  | name (s : String)
  deriving DecidableEq, Repr, Inhabited

/-- The value that a lexeme becomes. -/
inductive Construction
  /-- Its text. -/
  | text
  /-- Its text, and the offsets of its start and end. -/
  | span
  /-- A token of a kind, with its text. -/
  | token (kind : String)
  /-- The texts of some groups. -/
  | parts (keys : List GroupKey)
  deriving DecidableEq, Repr, Inhabited

namespace Construction

/-- The text of a group as a value. -/
def part (x : Lexeme) (key : GroupKey) : Value :=
  let found :=
    match key with
    | .index n => x.group? n
    | .name s => x.named? s
  match found with
  | some chars => .present (.str (String.ofList chars))
  | none => .absent

/-- The value of a lexeme. -/
def apply (x : Lexeme) : Construction → Value
  | .text => .str (String.ofList x.text)
  | .span => .list [.str (String.ofList x.text), .int x.start, .int x.stop]
  | .token kind => .token kind (String.ofList x.text)
  | .parts keys => .list (keys.map (part x))

end Construction

/-- The pattern of a tokenizer that a compiled pattern and a construction make. -/
def TokenPattern.ofRegex (p : Regex.Pattern) (c : Construction) : TokenPattern Value where
  search cursor := (p.search cursor.before.head? cursor.after).map (·.length)
  build cursor n :=
    let text := cursor.peek n
    let found := (p.search cursor.before.head? cursor.after).getD ⟨n, []⟩
    c.apply ⟨text, cursor.offset, cursor.offset + byteLength text, p, found⟩

/-- A written pattern that is not well formed, and its place among the patterns. -/
structure PatternError where
  index : Nat
  pattern : String
  deriving DecidableEq, Repr, Inhabited

/-- The text of the error, as far as it does not depend on what is wrong. -/
def PatternError.message (e : PatternError) : String :=
  "invalid pattern #" ++ toString e.index ++ " `" ++ e.pattern ++ "`: "

/-- Compiles written patterns, the first of which has the given index. -/
def compilePatterns (index : Nat) :
    List (String × Construction) → Except PatternError (List (TokenPattern Value))
  | [] => .ok []
  | (pattern, construction) :: rest =>
    match Regex.Pattern.compile? pattern with
    | none => .error ⟨index, pattern⟩
    | some compiled =>
      match compilePatterns (index + 1) rest with
      | .error e => .error e
      | .ok ps => .ok (.ofRegex compiled construction :: ps)

/-- The tokenizer of written patterns. -/
def Tokenizer.ofPatterns (tracking : Tracking) (patterns : List (String × Construction)) :
    Except PatternError (Tokenizer Position Value) :=
  match compilePatterns 0 patterns with
  | .error e => .error e
  | .ok ps => .ok ⟨tracking.tracker, ps⟩

end LazyGrammar

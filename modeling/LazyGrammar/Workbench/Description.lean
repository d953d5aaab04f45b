import LazyGrammar.Rule.Combinators
import LazyGrammar.Rule.Recursive
import LazyGrammar.Tokenizer.Lexeme
import LazyGrammar.Workbench.Function

/-!
# LazyGrammar.Workbench.Description

**Rules and inputs written down as data.** A description says how a rule is made of
others, by operation or by name. It is also what a rule made on demand keeps: its
supplier is the description of the rule, to be followed when the rule is needed.
-/

namespace LazyGrammar

/-- How to make a rule. -/
inductive Description
  /-- The rule with a name. -/
  | named (name : String)
  | just (v : Value)
  | any
  | terminal (test : Test)
  | select (selection : Selection)
  | epsilon
  | endOfInput
  | map (inner : Description) (f : Building)
  | constant (inner : Description) (v : Value)
  | oneOf (alternatives : List Description)
  | either (left right : Description)
  /-- Two rules one after the other, with the list of their values. -/
  | pair (first second : Description)
  | sequence (parts : List Description) (f : Building)
  | optional (inner : Description)
  | repetition (item : Description)
  | labelled (label : String) (inner : Description)
  /-- A rule that has the name within its body, and afterwards. -/
  | recursive (name : String) (body : Description)
  | declare
  /-- A rule to be made when it is needed. -/
  | deferred (inner : Description)
  /-- The rule, after looking at its first outcome on no input. -/
  | probe (inner : Description)
  deriving Inhabited, Repr

/-- A grammar over values, where suppliers are descriptions. -/
abbrev ValueGrammar := Grammar Value Value Description

/-- The patterns of the texts that a request tokenizes. -/
structure LexerDescription where
  tracking : Tracking
  patterns : List (String × Construction)
  /-- Tokens of this kind are left out. -/
  skip : Option String
  deriving Repr, Inhabited

/-- What the tokens of an input are. -/
inductive InputDescription
  /-- The characters of a text. -/
  | chars (s : String)
  /-- The characters of a text a number of times, then those of another one. -/
  | repeated (s : String) (times : Nat) (last : String)
  | values (vs : List Value)
  /-- What the tokenizer makes of a text, with positions or without. -/
  | text (s : String) (positions : Bool)
  deriving Repr, Inhabited

/-- Why there are no tokens. -/
inductive InputError
  | lexing (e : LexError Position)
  | pattern (e : PatternError)
  /-- A text is to be tokenized and there is no tokenizer. -/
  | noLexer
  deriving Repr, Inhabited

/-- The characters of a text as values. -/
def charValues (s : String) : List Value := s.toList.map fun c => .str (String.ofList [c])

/-- A token as an input has it. -/
def placeToken (positions : Bool) (t : Positioned Position Value) : Value :=
  if positions then .placed t.start t.value t.stop else t.value

/-- Whether a token is one to be left out. -/
def isSkipped (skip : Option String) : Value → Bool
  | .token kind _ => skip == some kind
  | _ => false

/-- The tokens of a run, up to its error if it ends with one. -/
def tokensOf (skip : Option String) (positions : Bool) :
    List (LexItem Position Value) → Except InputError (List Value)
  | [] => .ok []
  | .error e :: _ => .error (.lexing e)
  | .ok t :: rest =>
    match tokensOf skip positions rest with
    | .error e => .error e
    | .ok vs => .ok (if isSkipped skip t.value then vs else placeToken positions t :: vs)

/-- The tokens of an input. -/
def InputDescription.tokens (lexer : Option LexerDescription) :
    InputDescription → Except InputError (List Value)
  | .chars s => .ok (charValues s)
  | .repeated s times last =>
    .ok ((List.replicate times (charValues s)).flatten ++ charValues last)
  | .values vs => .ok vs
  | .text s positions =>
    match lexer with
    | none => .error .noLexer
    | some lexer =>
      match Tokenizer.ofPatterns lexer.tracking lexer.patterns with
      | .error e => .error (.pattern e)
      | .ok t => tokensOf lexer.skip positions (t.tokenize s.toList)

end LazyGrammar

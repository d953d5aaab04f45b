import LazyGrammar.Regex.Term
import LazyGrammar.Text.Property

/-!
# LazyGrammar.Regex.Atom

The **smallest parts of a written pattern**: single characters, escapes, named
classes, counts and flags, and what each of them stands for under the flags in force.

A reading function takes the characters of the pattern that are left and gives what
it has read with the characters after it, or nothing if the pattern is not well
formed. Where the flag `verbose` is set, blanks and comments may stand between the
parts.
-/

namespace LazyGrammar.Regex

/-! ### Flags -/

/-- The flags in force at a place of a pattern. -/
structure Flags where
  /-- Letters match without regard to case. -/
  caseless : Bool
  /-- Lines have a start and an end. -/
  multiLine : Bool
  /-- The dot matches line ends too. -/
  dotAll : Bool
  /-- Repetitions are lazy, unless marked. -/
  lazySwap : Bool
  /-- Classes are those of Unicode, not of ASCII. -/
  unicode : Bool
  /-- Blanks and comments mean nothing. -/
  verbose : Bool
  /-- A carriage return ends a line as well. -/
  returns : Bool
  deriving DecidableEq, Repr, Inhabited

/-- The flags at the start of a pattern. -/
def Flags.initial : Flags := ⟨false, false, false, false, true, false, false⟩

/-- Sets the flag with the given letter, if there is one. -/
def Flags.set? (f : Flags) (on : Bool) : Char → Option Flags
  | 'i' => some { f with caseless := on }
  | 'm' => some { f with multiLine := on }
  | 's' => some { f with dotAll := on }
  | 'U' => some { f with lazySwap := on }
  | 'u' => some { f with unicode := on }
  | 'x' => some { f with verbose := on }
  | 'R' => some { f with returns := on }
  | _ => none

/-! ### Blanks -/

/-- What follows the end of a comment. -/
def afterComment : List Char → List Char
  | [] => []
  | c :: rest => if c == '\n' then rest else afterComment rest

theorem length_afterComment_le (cs : List Char) : (afterComment cs).length ≤ cs.length := by
  induction cs with
  | nil => simp [afterComment]
  | cons c rest ih =>
    unfold afterComment
    split
    · simp
    · simp; omega

/-- What follows blanks and comments, if these mean nothing. -/
def skip (verbose : Bool) : List Char → List Char
  | [] => []
  | c :: rest =>
    if !verbose then c :: rest
    else if Text.isBlank c then skip verbose rest
    else if c == '#' then skip verbose (afterComment rest)
    else c :: rest
termination_by cs => cs.length
decreasing_by
  · simp
  · have := length_afterComment_le rest
    simp; omega

/-! ### Numbers -/

/-- The first number that a count of repetitions cannot be. -/
def countBound : Nat := 0x100000000

/-- The leading characters for which the test holds, with blanks skipped between
them, and what follows. -/
def takeSpaced (verbose : Bool) (test : Char → Bool) : Nat → List Char → List Char × List Char
  | 0, cs => ([], cs)
  | _, [] => ([], [])
  | fuel + 1, c :: rest =>
    if test c then
      let (taken, after) := takeSpaced verbose test fuel (skip verbose rest)
      (c :: taken, after)
    else ([], c :: rest)

/-- The value of a digit, in any base up to sixteen. -/
def digitValue (c : Char) : Nat :=
  if c.isDigit then c.toNat - 48
  else if 'a' ≤ c ∧ c ≤ 'f' then c.toNat - 87
  else c.toNat - 55

/-- Whether a character is a hexadecimal digit. -/
def isHex (c : Char) : Bool := c.isDigit || ('a' ≤ c && c ≤ 'f') || ('A' ≤ c && c ≤ 'F')

/-- The number that digits stand for. -/
def numberOf (base : Nat) (digits : List Char) : Nat :=
  digits.foldl (fun n c => n * base + digitValue c) 0

/-- Reads a count. White space may stand around it in any mode. -/
def readCount (verbose : Bool) (cs : List Char) : Option (Nat × List Char) :=
  let cs := cs.dropWhile Text.isBlank
  let (digits, rest) := takeSpaced verbose Char.isDigit cs.length cs
  let rest := skip verbose (rest.dropWhile Text.isBlank)
  let n := numberOf 10 digits
  if digits.isEmpty || n ≥ countBound then none else some (n, rest)

/-- The character with a code, if there is one. -/
def charOf? (n : Nat) : Option Char :=
  if n.isValidChar then some (Char.ofNat n) else none

/-! ### Escapes -/

/-- The classes of characters that have a letter. -/
inductive LetterClass
  | digit
  | blank
  | word
  deriving DecidableEq, Repr, Inhabited

/-- What a single character or an escape stands for. -/
inductive Atom
  /-- A character. The flag tells whether it was written as a two-digit code. -/
  | char (c : Char) (coded : Bool)
  | letterClass (cls : LetterClass) (negated : Bool)
  | property (ranges : List (Nat × Nat)) (negated : Bool)
  | look (condition : Flags → Look)

/-- Characters with a meaning in patterns, which an escape takes from them. -/
def isMeta (c : Char) : Bool := "\\.+*?()|[]\x7b\x7d^$#&-~".toList.contains c

/-- Whether a character may be escaped without need. -/
def isEscapable (c : Char) : Bool :=
  isMeta c || (c.toNat < 128 && !c.isAlphanum && c != '<' && c != '>')

/-- Reads exactly `n` hexadecimal digits. -/
def readHexDigits (verbose : Bool) : Nat → List Char → Option (List Char × List Char)
  | 0, cs => some ([], cs)
  | _, [] => none
  | n + 1, c :: rest =>
    if isHex c then
      (readHexDigits verbose n (skip verbose rest)).map fun (digits, after) => (c :: digits, after)
    else none

/-- Reads a character code after `\x`, `\u` or `\U`. -/
def readCode (verbose : Bool) (width : Nat) (cs : List Char) : Option (Atom × List Char) :=
  match skip verbose cs with
  | '\x7b' :: rest => do
    let rest := skip verbose rest
    let (digits, rest) := takeSpaced verbose (· != '\x7d') rest.length rest
    match rest with
    | '\x7d' :: rest =>
      if digits.isEmpty || !digits.all isHex then none
      else return (.char (← charOf? (numberOf 16 digits)) false, skip verbose rest)
    | _ => none
  | rest => do
    let (digits, rest) ← readHexDigits verbose width rest
    return (.char (← charOf? (numberOf 16 digits)) (width == 2), rest)

/-- Splits a text at the first of the given separators. -/
def splitAt? (separator : List Char) : List Char → Option (List Char × List Char)
  | [] => none
  | c :: rest =>
    if separator.isPrefixOf (c :: rest) then some ([], (c :: rest).drop separator.length)
    else (splitAt? separator rest).map fun (before, after) => (c :: before, after)

/-- The property with a written name, and whether the name asks for its complement. -/
def propertyOf (name : List Char) : Option (List (Nat × Nat) × Bool) :=
  match splitAt? ['!', '='] name with
  | some (property, value) => (Text.valued? property value).map (·, true)
  | none =>
    match (splitAt? [':'] name).orElse fun _ => splitAt? ['='] name with
    | some (property, value) => (Text.valued? property value).map (·, false)
    | none => (Text.named? name).map (·, false)

/-- Reads the name of a property after `\p` or `\P`. -/
def readProperty (verbose negated : Bool) (cs : List Char) : Option (Atom × List Char) :=
  match skip verbose cs with
  | [] => none
  | '\x7b' :: rest => do
    let rest := skip verbose rest
    let (name, rest) := takeSpaced verbose (· != '\x7d') rest.length rest
    match rest with
    | '\x7d' :: rest =>
      let (ranges, other) ← propertyOf name
      return (.property ranges (negated != other), rest)
    | _ => none
  | '\\' :: _ => none
  | c :: rest => do
    let (ranges, other) ← propertyOf [c]
    return (.property ranges (negated != other), skip verbose rest)

/-- The condition of a place at a word edge. -/
def wordEdge (negated : Bool) (f : Flags) : Look :=
  if negated then .noWordEdge f.unicode else .wordEdge f.unicode

/-- Reads an escape, from after the backslash. -/
def readEscape (verbose : Bool) : List Char → Option (Atom × List Char)
  | [] => none
  | 'x' :: rest => readCode verbose 2 rest
  | 'u' :: rest => readCode verbose 4 rest
  | 'U' :: rest => readCode verbose 8 rest
  | 'p' :: rest => readProperty verbose false rest
  | 'P' :: rest => readProperty verbose true rest
  | 'd' :: rest => some (.letterClass .digit false, rest)
  | 'D' :: rest => some (.letterClass .digit true, rest)
  | 's' :: rest => some (.letterClass .blank false, rest)
  | 'S' :: rest => some (.letterClass .blank true, rest)
  | 'w' :: rest => some (.letterClass .word false, rest)
  | 'W' :: rest => some (.letterClass .word true, rest)
  | 'a' :: rest => some (.char '\x07' false, rest)
  | 'f' :: rest => some (.char '\x0c' false, rest)
  | 't' :: rest => some (.char '\t' false, rest)
  | 'n' :: rest => some (.char '\n' false, rest)
  | 'r' :: rest => some (.char '\r' false, rest)
  | 'v' :: rest => some (.char '\x0b' false, rest)
  | 'A' :: rest => some (.look fun _ => .textStart, rest)
  | 'z' :: rest => some (.look fun _ => .textEnd, rest)
  | 'b' :: rest => some (.look (wordEdge false), rest)
  | 'B' :: rest => some (.look (wordEdge true), rest)
  | c :: rest => if isEscapable c then some (.char c false, rest) else none

/-! ### Meaning under flags -/

/-- The set closed under case, as far as the flags ask for it. -/
def foldCase (f : Flags) (s : CharSet) : CharSet :=
  if f.caseless then (if f.unicode then s.closeCase else s.closeAsciiCase) else s

/-- The set or its complement. Without Unicode a complement would match parts of
characters, so there is none. -/
def negateIf (f : Flags) (negated : Bool) (s : CharSet) : Option CharSet :=
  if negated then (if f.unicode then some s.complement else none) else some s

/-- The characters of ASCII that a class with a letter has. -/
def LetterClass.asciiRanges : LetterClass → List (Nat × Nat)
  | .digit => [(0x30, 0x39)]
  | .blank => [(0x09, 0x0D), (0x20, 0x20)]
  | .word => [(0x30, 0x39), (0x41, 0x5A), (0x5F, 0x5F), (0x61, 0x7A)]

/-- All characters that a class with a letter has. -/
def LetterClass.ranges : LetterClass → List (Nat × Nat)
  | .digit => Text.CategoryTable.decimalDigit
  | .blank => Text.CategoryTable.blank
  | .word => Text.word

/-- The set of a class with a letter. -/
def LetterClass.toSet (cls : LetterClass) (negated : Bool) (f : Flags) : Option CharSet :=
  negateIf f negated (.ofRanges (if f.unicode then cls.ranges else cls.asciiRanges))

/-- The set of a property. It is one of Unicode alone. -/
def propertySet (ranges : List (Nat × Nat)) (negated : Bool) (f : Flags) : Option CharSet :=
  if f.unicode then negateIf f negated (foldCase f (.ofRanges ranges)) else none

/-- Whether a character may be written as it was. Without Unicode a two-digit code is
that of a byte, which must be one of ASCII. -/
def allowsChar (c : Char) (coded : Bool) (f : Flags) : Bool :=
  f.unicode || !coded || c.toNat < 128

/-- The characters that the dot stands for. -/
def dotSet (f : Flags) : Option CharSet :=
  if !f.unicode then none
  else if f.dotAll then some CharSet.none.complement
  else if f.returns then some (CharSet.ofRanges [(0x0A, 0x0A), (0x0D, 0x0D)]).complement
  else some (CharSet.single '\n').complement

/-- The condition that `^` stands for. -/
def caretLook (f : Flags) : Look :=
  if f.multiLine then (if f.returns then .returnLineStart else .lineStart) else .textStart

/-- The condition that `$` stands for. -/
def dollarLook (f : Flags) : Look :=
  if f.multiLine then (if f.returns then .returnLineEnd else .lineEnd) else .textEnd

/-- The term of an atom that stands by itself. -/
def Atom.toTerm (f : Flags) : Atom → Option Term
  | .char c coded =>
    if allowsChar c coded f then some (.chars (foldCase f (.single c))) else none
  | .letterClass cls negated => (cls.toSet negated f).map .chars
  | .property ranges negated => (propertySet ranges negated f).map .chars
  | .look condition => some (.look (condition f))

end LazyGrammar.Regex

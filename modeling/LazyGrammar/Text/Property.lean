import LazyGrammar.Text.CategoryTable
import LazyGrammar.Text.ScriptTable

/-!
# LazyGrammar.Text.Property

The **properties of characters** that patterns can ask for, as sets of code points:
general categories and their unions, the alphabetic characters, word characters,
white space, and scripts. `named?` finds a property by the names it goes by.
-/

namespace LazyGrammar.Text

/-! ### Sets -/

/-- Upper case letters. -/
def uppercase : List (Nat × Nat) := progressions CategoryTable.uppercase

/-- Lower case letters. -/
def lowercase : List (Nat × Nat) := progressions CategoryTable.lowercase

/-- Letters of all kinds. -/
def letter : List (Nat × Nat) :=
  uppercase ++ lowercase ++ CategoryTable.titlecase ++ CategoryTable.modifierLetter
    ++ CategoryTable.otherLetter

/-- Numbers of all kinds. -/
def number : List (Nat × Nat) :=
  CategoryTable.decimalDigit ++ CategoryTable.letterNumber ++ CategoryTable.otherNumber

/-- Alphabetic characters. -/
def alphabetic : List (Nat × Nat) :=
  letter ++ CategoryTable.letterNumber ++ CategoryTable.otherAlphabetic

/-- Word characters: alphabetic ones, marks, decimal digits, connectors, and the two
characters that control joining. -/
def word : List (Nat × Nat) :=
  alphabetic ++ CategoryTable.mark ++ CategoryTable.decimalDigit ++ CategoryTable.connector
    ++ [(0x200C, 0x200D)]

/-- All code points that are characters. -/
def everything : List (Nat × Nat) := [(0, 0xD7FF), (0xE000, 0x10FFFF)]

/-! ### Names -/

/-- A property name without case, blanks, hyphens and low lines, and without a
leading "is". -/
def plainName (name : List Char) : String :=
  let name := (name.map Char.toLower).filter fun c => !(c == ' ' || c == '-' || c == '_')
  match name with
  | 'i' :: 's' :: rest => String.ofList (if rest == ['c'] then name else rest)
  | name => String.ofList name

/-- A general category by its plain name. -/
def category? : String → Option (List (Nat × Nat))
  | "l" | "letter" => some letter
  | "lu" | "uppercaseletter" => some uppercase
  | "ll" | "lowercaseletter" => some lowercase
  | "lt" | "titlecaseletter" => some CategoryTable.titlecase
  | "lm" | "modifierletter" => some CategoryTable.modifierLetter
  | "lo" | "otherletter" => some CategoryTable.otherLetter
  | "lc" | "casedletter" => some (uppercase ++ lowercase ++ CategoryTable.titlecase)
  | "m" | "mark" | "combiningmark" => some CategoryTable.mark
  | "n" | "number" => some number
  | "nd" | "decimalnumber" | "digit" => some CategoryTable.decimalDigit
  | "nl" | "letternumber" => some CategoryTable.letterNumber
  | "no" | "othernumber" => some CategoryTable.otherNumber
  | "p" | "punctuation" | "punct" => some CategoryTable.punctuation
  | "pc" | "connectorpunctuation" => some CategoryTable.connector
  | "any" => some everything
  | "ascii" => some [(0, 0x7F)]
  | _ => none

/-- A script by its plain name. -/
def script? : String → Option (List (Nat × Nat))
  | "cyrillic" | "cyrl" => some ScriptTable.cyrillic
  | "greek" | "grek" => some ScriptTable.greek
  | "han" | "hani" => some ScriptTable.han
  | "latin" | "latn" => some ScriptTable.latin
  | _ => none

/-- A property that characters have or do not have, by its plain name. -/
def binary? : String → Option (List (Nat × Nat))
  | "alphabetic" | "alpha" => some alphabetic
  | "whitespace" | "wspace" | "space" => some CategoryTable.blank
  | _ => none

/-- A property by its name. -/
def named? (name : List Char) : Option (List (Nat × Nat)) :=
  let name := plainName name
  (binary? name).orElse fun _ => (category? name).orElse fun _ => script? name

/-- A property by the name of what it is a value of, and its own name. -/
def valued? (property value : List Char) : Option (List (Nat × Nat)) :=
  match plainName property with
  | "gc" | "generalcategory" => category? (plainName value)
  | "sc" | "script" => script? (plainName value)
  | _ => none

/-! ### Tests -/

/-- White space, ready for look-up. -/
def blanks : Ranges := .ofList CategoryTable.blank

/-- Whether a character is white space. -/
def isBlank (c : Char) : Bool := blanks.has c

end LazyGrammar.Text

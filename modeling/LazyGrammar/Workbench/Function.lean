import LazyGrammar.Fault
import LazyGrammar.Value
import LazyGrammar.Word

/-!
# LazyGrammar.Workbench.Function

The **functions that a described grammar can use**: tests of tokens, selections of a
value from a token, and constructions of a value from values. They are data, so that
a grammar can be written down.

Tests and selections look at a token without the positions around it.
-/

namespace LazyGrammar

/-! ### Tests -/

/-- A test of tokens. Which part of it applies depends on the token. -/
structure Test where
  /-- For texts: the text is one of these characters. -/
  within : Option String
  /-- For texts: the first character is between the first ones of these texts. -/
  range : Option (String × String)
  /-- For tokens with a kind: the kind is this one. -/
  kind : Option String
  /-- For integers: the integer is smaller. -/
  below : Option Int
  /-- The answer where nothing above applies. -/
  all : Bool
  deriving DecidableEq, Repr, Inhabited

/-- The order of first characters, where a text without any comes first. -/
def firstLe : List Char → List Char → Bool
  | [], _ => true
  | _ :: _, [] => false
  | c :: _, d :: _ => c ≤ d

namespace Test

/-- The test of a text. -/
def ofText (t : Test) (s : String) : Bool :=
  match t.within with
  | some set =>
    match s.toList with
    | [c] => set.toList.contains c
    | _ => false
  | none =>
    match t.range with
    | some (lo, hi) => firstLe lo.toList s.toList && firstLe s.toList hi.toList
    | none => t.all

/-- Whether a token passes. -/
def passes (t : Test) (token : Value) : Bool :=
  match token.bare with
  | .str s => t.ofText s
  | .token kind _ =>
    match t.kind with
    | some k => kind == k
    | none => t.all
  | .int n =>
    match t.below with
    | some bound => n < bound
    | none => t.all
  | _ => t.all

end Test

/-! ### Selections -/

/-- A selection of a value from a token. -/
inductive Selection
  /-- The value of a decimal digit. -/
  | digit
  /-- The text of a token of this kind. -/
  | kind (k : String)
  /-- The value that belongs to a text. -/
  | table (rows : List (String × Value))
  deriving Repr, Inhabited

/-- The value selected from a token. -/
def Selection.select (s : Selection) (token : Value) : Option Value :=
  match s, token.bare with
  | .digit, .str text =>
    match text.toList with
    | [c] => if c.isDigit then some (.int (c.toNat - 48)) else none
    | _ => none
  | .kind k, .token found text => if found == k then some (.str text) else none
  | .table rows, .str text => rows.lookup text
  | _, _ => none

/-! ### Constructions -/

/-- A construction of a value from values. -/
inductive Building
  | list
  | node (name : String)
  /-- The value with this index. -/
  | pick (index : Nat)
  /-- One more than the value with this index. -/
  | increment (index : Nat)
  | const (v : Value)
  /-- The texts of all values, one after the other. -/
  | concat
  /-- The number of elements or characters of the first value. -/
  | length
  /-- The sum of all integers. -/
  | sum
  /-- The first value before the elements of the last one. -/
  | cons
  /-- None: gives up. -/
  | fail
  deriving Repr, Inhabited

namespace Building

/-- The value with an index. -/
def nth (vs : List Value) (index : Nat) : Except Fault Value :=
  match vs[index]? with
  | some v => .ok v
  | none => .error (.raised ("index out of bounds: the len is " ++ toString vs.length
      ++ " but the index is " ++ toString index))

/-- One more than an integer, or one. -/
def successor : Value → Value
  | .int n => .int (word (n + 1))
  | _ => .int 1

/-- The number of elements or characters of a value. -/
def size : Value → Nat
  | .list items => items.length
  | .str s => s.length
  | _ => 0

/-- The first value before the elements of the last one, if that is a list. -/
def consValues : List Value → List Value
  | [] => []
  | [v] => [v]
  | v :: vs =>
    match vs.getLast? with
    | some (.list items) => v :: items
    | _ => [v]

/-- The value constructed from values. -/
def apply (vs : List Value) : Building → Except Fault Value
  | .list => .ok (.list vs)
  | .node name => .ok (.node name vs)
  | .pick index => nth vs index
  | .increment index => (nth vs index).map successor
  | .const v => .ok v
  | .concat => .ok (.str (String.join (vs.map Value.render)))
  | .length => (nth vs 0).map fun v => .int (size v)
  | .sum => .ok (.int (word (Value.totalAll vs)))
  | .cons => (nth vs 0).map fun _ => .list (consValues vs)
  | .fail => .error (.raised "evaluated")

end Building

end LazyGrammar

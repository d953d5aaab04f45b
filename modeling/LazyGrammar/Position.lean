import LazyGrammar.Text.Grapheme

/-!
# LazyGrammar.Position

**Positions in a text** and the ways of tracking them. A tracker gives the position
at the start of a text and says how a piece of text advances a position; a
`Positioned` value carries the positions around the text it was made from.

Design points:

* A `Tracker` is a pair of pure data and function, so the tokenizer is the same
  program for every kind of position.
* Columns count **grapheme clusters** of the piece that advances the position, not
  of the whole text: a cluster that two pieces share counts once in each.
* What the clusters of a piece are is a parameter, a `Segmentation`; the tracker that runs
  takes `Text.graphemes` for it.
-/

namespace LazyGrammar

variable {π α β : Type}

/-- A way of cutting a text into clusters. -/
abbrev Segmentation := List Char → List (List Char)

/-! ### Lines and columns -/

/-- A line and a column, both counted from one. -/
structure LineColumn where
  line : Nat
  column : Nat
  deriving DecidableEq, Repr, Inhabited

namespace LineColumn

/-- Where every text starts. -/
def start : LineColumn := ⟨1, 1⟩

/-- The text of a position. -/
def render (p : LineColumn) : String := toString p.line ++ ":" ++ toString p.column

/-- Whether one position comes before another in a text. -/
def before (p q : LineColumn) : Bool :=
  p.line < q.line || (p.line == q.line && p.column < q.column)

/-- Whether a cluster ends a line. A lone carriage return does not. -/
def endsLine (cluster : List Char) : Bool :=
  cluster == ['\n'] || cluster == ['\r', '\n']

/-- The position after one cluster. -/
def pass (p : LineColumn) (cluster : List Char) : LineColumn :=
  if endsLine cluster then ⟨p.line + 1, 1⟩ else ⟨p.line, p.column + 1⟩

/-- The position after a piece of text. -/
def advance (segment : Segmentation) (p : LineColumn) (text : List Char) : LineColumn :=
  (segment text).foldl pass p

/-- The order of positions in a text, as a sorting key. -/
def le (p q : LineColumn) : Bool := !q.before p

/-- The positions in ascending order. -/
def sorted (ps : List LineColumn) : List LineColumn := ps.mergeSort le

/-- How many different positions there are. -/
def distinct (ps : List LineColumn) : Nat := ps.eraseDups.length

end LineColumn

/-! ### Trackers -/

/-- The number of bytes that a text takes in UTF-8. -/
def byteLength : List Char → Nat
  | [] => 0
  | c :: text => c.utf8Size + byteLength text

@[simp] theorem byteLength_append (text more : List Char) :
    byteLength (text ++ more) = byteLength text + byteLength more := by
  induction text with
  | nil => simp [byteLength]
  | cons c text ih => simp [byteLength, ih, Nat.add_assoc]

/-- A way of tracking positions of type `π`. -/
structure Tracker (π : Type) where
  /-- The position at the start of a text. -/
  start : π
  /-- The position after a piece of text that stands at the given position. -/
  next : π → List Char → π

namespace Tracker

/-- Records nothing. -/
def nowhere : Tracker Unit := ⟨(), fun _ _ => ()⟩

/-- Counts characters. -/
def characters : Tracker Nat := ⟨0, fun n text => n + text.length⟩

/-- Counts bytes of the UTF-8 form. -/
def bytes : Tracker Nat := ⟨0, fun n text => n + byteLength text⟩

/-- Counts lines, and clusters within a line. -/
def lineColumn (segment : Segmentation) : Tracker LineColumn := ⟨.start, .advance segment⟩

/-- The same tracker with its positions seen through an invertible view. -/
def view (t : Tracker π) (wrap : π → α) (unwrap : α → π) : Tracker α :=
  ⟨wrap t.start, fun p text => wrap (t.next (unwrap p) text)⟩

end Tracker

/-- A position of any of the kinds that trackers record. -/
inductive Position
  | nowhere
  | offset (n : Nat)
  | place (p : LineColumn)
  deriving DecidableEq, Repr, Inhabited

/-- The choice of a tracker by the kind of position it records. -/
inductive Tracking
  | nowhere
  | characters
  | bytes
  | lineColumn
  deriving DecidableEq, Repr, Inhabited

namespace Position

/-- The offset that a position holds. -/
def toOffset : Position → Nat
  | .offset n => n
  | _ => 0

/-- The line and column that a position holds. -/
def toLineColumn : Position → LineColumn
  | .place p => p
  | _ => .start

end Position

/-- The tracker of a kind, over the common type of positions. -/
def Tracking.tracker : Tracking → Tracker Position
  | .nowhere => Tracker.nowhere.view (fun _ => .nowhere) (fun _ => ())
  | .characters => Tracker.characters.view .offset Position.toOffset
  | .bytes => Tracker.bytes.view .offset Position.toOffset
  | .lineColumn => (Tracker.lineColumn Text.graphemes).view .place Position.toLineColumn

/-- The start of a text, then the position after each of its pieces. -/
def Tracker.trail (t : Tracker π) (pieces : List (List Char)) : List π :=
  go t.start pieces
where
  /-- The given position, then the positions after it. -/
  go (p : π) : List (List Char) → List π
    | [] => [p]
    | piece :: rest => p :: go (t.next p piece) rest

/-! ### Positioned values -/

/-- A value with the positions where its text starts and ends. -/
structure Positioned (π α : Type) where
  start : π
  value : α
  stop : π
  deriving DecidableEq, Repr, Inhabited

namespace Positioned

/-- Another value at the same place. -/
def map (f : α → β) (p : Positioned π α) : Positioned π β := ⟨p.start, f p.value, p.stop⟩

@[simp] theorem map_start (f : α → β) (p : Positioned π α) : (p.map f).start = p.start := rfl

@[simp] theorem map_stop (f : α → β) (p : Positioned π α) : (p.map f).stop = p.stop := rfl

@[simp] theorem map_value (f : α → β) (p : Positioned π α) : (p.map f).value = f p.value := rfl

end Positioned

end LazyGrammar

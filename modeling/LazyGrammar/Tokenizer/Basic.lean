import LazyGrammar.Position

/-!
# LazyGrammar.Tokenizer.Basic

**Longest-match tokenizing.** A tokenizer tries its patterns in order at a place of
the text; the longest match wins, and of matches of one length that of the earliest
pattern. The winner makes a token of the matched text, and tokenizing goes on after
it.

Design points:

* A pattern is a search and a construction. Of the search nothing is assumed here but
  that it is a function of the place, so the theory of tokenizing does not depend on
  what patterns are.
* A place is a `Cursor`: the text before it in reverse and the text after it. The
  length of a match counts characters, so matches cannot end inside of one. Of a search
  that counts bytes (`TokenPattern.ofBytes`) it is relied on that it ends between
  characters (`EndsBetween`).
* A match without length ends the run with an error; every other one shortens the
  text that is left.
-/

namespace LazyGrammar

variable {π τ : Type}

/-! ### Places in a text -/

/-- A place in a text. -/
structure Cursor where
  /-- The characters before the place, the nearest first. -/
  before : List Char
  /-- The characters after the place, the nearest first. -/
  after : List Char
  /-- The number of bytes before the place. -/
  offset : Nat
  deriving DecidableEq, Repr, Inhabited

namespace Cursor

/-- The start of a text. -/
def start (text : List Char) : Cursor := ⟨[], text, 0⟩

/-- The next `n` characters. -/
def peek (c : Cursor) (n : Nat) : List Char := c.after.take n

/-- The place after the next `n` characters. -/
def skip (c : Cursor) (n : Nat) : Cursor :=
  ⟨(c.peek n).reverse ++ c.before, c.after.drop n, c.offset + byteLength (c.peek n)⟩

/-- The whole text. -/
def text (c : Cursor) : List Char := c.before.reverse ++ c.after

@[simp] theorem text_start (text : List Char) : (start text).text = text := by
  simp [start, Cursor.text]

@[simp] theorem text_skip (c : Cursor) (n : Nat) : (c.skip n).text = c.text := by
  simp [skip, Cursor.text, peek, List.append_assoc, List.take_append_drop]

theorem length_after_skip (c : Cursor) (n : Nat) :
    (c.skip n).after.length = c.after.length - n := by
  simp [skip]

end Cursor

/-! ### Patterns -/

/-- A pattern with the construction of its tokens. -/
structure TokenPattern (τ : Type) where
  /-- The number of characters that the pattern matches at a place, if it matches. -/
  search : Cursor → Option Nat
  /-- The token for a match of that many characters. -/
  build : Cursor → Nat → τ

/-- The number of characters that the first bytes of a text take up. -/
def charCount : List Char → Nat → Nat
  | [], _ => 0
  | c :: text, bytes => if bytes = 0 then 0 else charCount text (bytes - c.utf8Size) + 1

/-- What is relied on of a search that counts bytes: the bytes that it matches at a place
are those of some of the next characters. -/
def EndsBetween (find : Cursor → Option Nat) : Prop :=
  ∀ c bytes, find c = some bytes → ∃ n ≤ c.after.length, byteLength (c.peek n) = bytes

/-- The pattern of a search that counts bytes. -/
def TokenPattern.ofBytes (find : Cursor → Option Nat) (build : Cursor → Nat → τ) :
    TokenPattern τ where
  search c := (find c).map (charCount c.after)
  build := build

/-- A tokenizer: a way of tracking positions, and patterns, the preferred ones first. -/
structure Tokenizer (π τ : Type) where
  tracker : Tracker π
  patterns : List (TokenPattern τ)

/-- A match: the index of a pattern, and how many characters it matches. -/
structure Winner where
  index : Nat
  length : Nat
  deriving DecidableEq, Repr, Inhabited

namespace Tokenizer

/-- The better of a match and the one found so far: only a longer match replaces it. -/
def better (best : Option Winner) (w : Winner) : Option Winner :=
  match best with
  | some b => if b.length < w.length then some w else some b
  | none => some w

/-- The best match of the patterns with an index from `index` on and the best one so
far. -/
def bestFrom (c : Cursor) (index : Nat) (best : Option Winner) :
    List (TokenPattern τ) → Option Winner
  | [] => best
  | p :: ps =>
    match p.search c with
    | some length => bestFrom c (index + 1) (better best ⟨index, length⟩) ps
    | none => bestFrom c (index + 1) best ps

/-- The longest match at a place, and among those the earliest. -/
def longest (t : Tokenizer π τ) (c : Cursor) : Option Winner := bestFrom c 0 none t.patterns

end Tokenizer

/-! ### Runs -/

/-- Why tokenizing cannot go on. -/
inductive LexCause
  /-- No pattern matches. -/
  | noMatch
  /-- The longest match, of the pattern with this index, is empty. -/
  | emptyMatch (pattern : Nat)
  deriving DecidableEq, Repr, Inhabited

/-- Where and why tokenizing cannot go on. -/
structure LexError (π : Type) where
  /-- The number of bytes before the place. -/
  offset : Nat
  position : π
  cause : LexCause
  deriving DecidableEq, Repr, Inhabited

/-- The text of an error. -/
def LexError.message (e : LexError π) : String :=
  match e.cause with
  | .noMatch => "no pattern matches at offset " ++ toString e.offset
  | .emptyMatch pattern =>
    "pattern #" ++ toString pattern ++ " matches the empty string at offset " ++ toString e.offset

/-- A token with its positions, or the error that ends the run. -/
abbrev LexItem (π τ : Type) := Except (LexError π) (Positioned π τ)

/-- A run under way. Once it has ended there is no position. -/
structure Lexing (π : Type) where
  cursor : Cursor
  position : Option π
  deriving Repr, Inhabited

namespace Tokenizer

/-- A run at the start of a text. -/
def begin (t : Tokenizer π τ) (text : List Char) : Lexing π := ⟨.start text, some t.tracker.start⟩

/-- The next item of a run, and the run after it. -/
def next (t : Tokenizer π τ) (run : Lexing π) : Option (LexItem π τ) × Lexing π :=
  match run.position with
  | none => (none, run)
  | some start =>
    if run.cursor.after.isEmpty then (none, ⟨run.cursor, none⟩)
    else
      match t.longest run.cursor with
      | none => (some (.error ⟨run.cursor.offset, start, .noMatch⟩), ⟨run.cursor, none⟩)
      | some ⟨index, 0⟩ =>
        (some (.error ⟨run.cursor.offset, start, .emptyMatch index⟩), ⟨run.cursor, none⟩)
      | some ⟨index, n + 1⟩ =>
        match t.patterns[index]? with
        | none => (none, ⟨run.cursor, none⟩)
        | some p =>
          let stop := t.tracker.next start (run.cursor.peek (n + 1))
          (some (.ok ⟨start, p.build run.cursor (n + 1), stop⟩),
            ⟨run.cursor.skip (n + 1), some stop⟩)

/-- Up to `count` items of a run. -/
def items (t : Tokenizer π τ) : Nat → Lexing π → List (LexItem π τ)
  | 0, _ => []
  | count + 1, run =>
    match t.next run with
    | (some item, run) => item :: t.items count run
    | (none, _) => []

/-- All items of a run: every token takes a character at least, and an error is the
last item. -/
def tokenize (t : Tokenizer π τ) (text : List Char) : List (LexItem π τ) :=
  t.items (text.length + 1) (t.begin text)

/-- The short description of a tokenizer. -/
def summary (t : Tokenizer π τ) : String :=
  "Tokenizer \x7b patterns: " ++ toString t.patterns.length ++ " \x7d"

end Tokenizer

end LazyGrammar

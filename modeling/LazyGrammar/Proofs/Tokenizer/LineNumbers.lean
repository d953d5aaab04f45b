import LazyGrammar.Proofs.Tokenizer.Tiling
import LazyGrammar.Proofs.Text.Lines

/-!
# LazyGrammar.Proofs.Tokenizer.LineNumbers

**Line numbers are exact.** However a text is cut into tokens, the line of a position is
one more than the line feeds before it, and its column is the first one at the start of
the text and after a line feed, and nowhere else.

Design points:

* Columns do depend on the cut, as a cluster may stretch over two tokens. Whether a column
  is the first one does not: every piece of text moves the column on, unless its last
  character is a line feed (`LineColumn.column_advance_eq_one_iff`).
* `ExactAfter` holds the facts that a tracker keeps up from one piece to the next; that
  they hold along a run of the tokenizer is an instance of `Lexes.kept`.
* Of the segmentation no more is used than that it is `Faithful`.
-/

namespace LazyGrammar

variable {τ : Type} {segment : Segmentation}

namespace LineColumn

variable {p : LineColumn} {before text : List Char}

/-- What is exact about a position, whatever pieces the text before it came in. -/
structure ExactAfter (p : LineColumn) (text : List Char) : Prop where
  /-- Every line feed starts a line, one that follows a carriage return as well. -/
  line : p.line = 1 + text.count '\n'
  column_pos : 1 ≤ p.column
  /-- The first column is at the start of the text and after a line feed. -/
  first_column : p.column = 1 ↔ text = [] ∨ text.getLast? = some '\n'

/-- The position after a piece of text is as exact as the one before it. -/
theorem ExactAfter.advance (hsegment : segment.Faithful) (h : p.ExactAfter before)
    (text : List Char) : (p.advance segment text).ExactAfter (before ++ text) where
  line := by rw [line_advance hsegment, h.line, List.count_append, Nat.add_assoc]
  column_pos := one_le_column_foldl_pass h.column_pos (segment text)
  first_column := by
    rw [column_advance_eq_one_iff hsegment h.column_pos, h.first_column]
    cases htext : text.getLast? with
    | none => simp [List.getLast?_eq_none_iff.1 htext]
    | some c =>
      have hne : text ≠ [] := List.ne_nil_of_mem (List.mem_of_getLast? htext)
      simp [List.getLast?_append, htext, hne]

end LineColumn

open LineColumn (ExactAfter)

theorem Tracker.lineColumn_keeps (hsegment : segment.Faithful) :
    (Tracker.lineColumn segment).Keeps ExactAfter where
  start := ⟨rfl, Nat.le_refl 1, by simp [lineColumn, LineColumn.start]⟩
  next h more := h.advance hsegment more

/-- What a tracker keeps holds after any pieces. -/
theorem Tracker.Keeps.foldl {π : Type} {tracker : Tracker π} {Fits : π → List Char → Prop}
    (h : tracker.Keeps Fits) (pieces : List (List Char)) :
    Fits (pieces.foldl tracker.next tracker.start) pieces.flatten := by
  induction pieces using List.reverseRecOn with
  | nil => exact h.start
  | append_singleton pieces piece ih =>
    rw [List.foldl_concat, List.flatten_append, List.flatten_singleton]
    exact h.next ih piece

/-- **Line numbers are exact**, for any segmentation that keeps to the text and to the ends of
lines. Whatever the patterns are and whatever the text is, the run tiles the text, and every
position of it is exact: the line is one more than the number of line feeds in the text before
it, and the column is the first one exactly at the start of the text and after a line feed. So
it is after any cut of a text into pieces, one between a carriage return and its line feed or
before a combining mark included. -/
theorem lineColumn_exact (hsegment : segment.Faithful) (patterns : List (TokenPattern τ))
    (text : List Char) :
    (∃ tiles failure,
      (Tokenizer.mk (.lineColumn segment) patterns).Tiling text tiles failure ∧
      (∀ x ∈ tiles, x.token.start.ExactAfter x.before ∧
        x.token.stop.ExactAfter (x.before ++ x.text)) ∧
      ∀ e ∈ failure, e.position.ExactAfter (covered tiles)) ∧
    ∀ pieces : List (List Char), pieces.flatten = text →
      (pieces.foldl (Tracker.lineColumn segment).next
        (Tracker.lineColumn segment).start).ExactAfter text := by
  have hkeeps := Tracker.lineColumn_keeps hsegment
  refine ⟨?_, fun pieces hpieces => hpieces ▸ hkeeps.foldl pieces⟩
  obtain ⟨tiles, failure, h⟩ :=
    (Tokenizer.mk (.lineColumn segment) patterns).exists_lexes (.start text) LineColumn.start
  refine ⟨tiles, failure, h.tiling, ?_⟩
  simpa [Cursor.start] using h.kept hkeeps hkeeps.start

/-- A pattern for any one character. -/
def TokenPattern.character : TokenPattern (List Char) := ⟨fun _ => some 1, Cursor.peek⟩

/-- A letter and its accent are two tokens, a carriage return and its line feed two more. -/
theorem lineColumn_exact_split :
    Segmentation.Faithful Text.graphemes ∧
      (∃ tiles failure, (Tokenizer.mk (.lineColumn Text.graphemes) [.character]).Tiling
        ['e', '\u0301', '\r', '\n'] tiles failure ∧
        (∀ x ∈ tiles, x.token.start.ExactAfter x.before ∧
          x.token.stop.ExactAfter (x.before ++ x.text)) ∧
        ∀ e ∈ failure, e.position.ExactAfter (covered tiles)) ∧
      [['e'], ['\u0301'], ['\r'], ['\n']].foldl (Tracker.lineColumn Text.graphemes).next
        (Tracker.lineColumn Text.graphemes).start = ⟨2, 1⟩ ∧
      (LineColumn.mk 2 1).ExactAfter ['e', '\u0301', '\r', '\n'] := by
  have hfaithful := Segmentation.standard_unicode.faithful Text.lawful_unicode
  obtain ⟨hrun, hpieces⟩ :=
    lineColumn_exact hfaithful [TokenPattern.character] ['e', '\u0301', '\r', '\n']
  have hposition : [['e'], ['\u0301'], ['\r'], ['\n']].foldl
      (Tracker.lineColumn Text.graphemes).next (Tracker.lineColumn Text.graphemes).start
        = ⟨2, 1⟩ := by decide +kernel
  exact ⟨hfaithful, hrun, hposition, hposition ▸ hpieces _ rfl⟩

end LazyGrammar

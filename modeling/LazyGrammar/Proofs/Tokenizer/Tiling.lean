import LazyGrammar.Tokenizer.Basic
import Mathlib.Data.List.Chain

/-!
# LazyGrammar.Proofs.Tokenizer.Tiling

**Tokenizing tiles the text.** Every run cuts a start of its text into non-empty
pieces, one for each token, each where the last one ends. The pieces make up the whole
text, or an error says where they stop short of it; nothing comes after that. The
tracker takes the position at the start of the text along, piece by piece.

Design points:

* Nothing is assumed of the patterns. A match is a number of characters, so it cannot
  end inside of one or before its start, and one that is longer than the text that is
  left is cut to it.
* `Lexes` is the course of a run as a relation: one constructor for each exit of
  `next` and one for a token. What a run is like is proved by induction on it.
* A tracker that counts is one whose position after two pieces is that after both at
  once (`Tracker.Counts`); bytes and characters are counted so, lines and columns are
  not, as a cluster may stretch over two pieces.
-/

namespace LazyGrammar

variable {π τ : Type}

/-! ### Requests -/

namespace Tokenizer

variable (t : Tokenizer π τ)

/-- A run after `k` requests. -/
def later : Nat → Lexing π → Lexing π
  | 0, run => run
  | k + 1, run => later k (t.next run).2

/-- What a run answers to the request with number `k`, the first of which is `0`. -/
def answer (k : Nat) (run : Lexing π) : Option (LexItem π τ) := (t.next (t.later k run)).1

theorem answer_zero (run : Lexing π) : t.answer 0 run = (t.next run).1 := rfl

theorem answer_succ (k : Nat) (run : Lexing π) :
    t.answer (k + 1) run = t.answer k (t.next run).2 := rfl

/-- A run that has ended answers nothing any more. -/
@[simp] theorem answer_ended (c : Cursor) (k : Nat) : t.answer k ⟨c, none⟩ = none := by
  induction k with
  | zero => rfl
  | succ k ih => exact ih

@[simp] theorem items_ended (c : Cursor) (count : Nat) : t.items count ⟨c, none⟩ = [] := by
  cases count <;> rfl

end Tokenizer

/-! ### Pieces -/

/-- A piece of a text with the token that was made of it. -/
structure Tile (π τ : Type) where
  /-- Where the piece starts. -/
  place : Cursor
  /-- How many characters were matched there. -/
  length : Nat
  token : Positioned π τ

namespace Tile

variable (x : Tile π τ)

/-- The matched text. -/
def text : List Char := x.place.peek x.length

/-- The text before the piece. -/
def before : List Char := x.place.before.reverse

/-- The place where the piece ends. -/
def ending : Cursor := x.place.skip x.length

theorem before_ending : x.ending.before.reverse = x.before ++ x.text := by
  simp [ending, Cursor.skip, before, text]

theorem offset_ending : x.ending.offset = x.place.offset + byteLength x.text := rfl

/-- What is left at the start of a piece is the piece and what is left at its end. -/
theorem text_append_ending : x.text ++ x.ending.after = x.place.after := by
  simp [text, ending, Cursor.skip, Cursor.peek]

end Tile

namespace Tokenizer

variable (t : Tokenizer π τ)

/-- The piece is the longest match where it starts, it is not empty, and its token is
what the pattern that matched makes of it. -/
structure Makes (x : Tile π τ) : Prop where
  rest : x.place.after ≠ []
  positive : 0 < x.length
  built : ∃ index p, t.longest x.place = some ⟨index, x.length⟩ ∧
    t.patterns[index]? = some p ∧ x.token.value = p.build x.place x.length
  stop : x.token.stop = t.tracker.next x.token.start x.text

/-- Tokenizing cannot go on at a place: there is text left, but no match or only an
empty one. -/
structure Refuses (c : Cursor) (e : LexError π) : Prop where
  rest : c.after ≠ []
  offset : e.offset = c.offset
  cause : (t.longest c = none ∧ e.cause = .noMatch) ∨
    ∃ index, t.longest c = some ⟨index, 0⟩ ∧ e.cause = .emptyMatch index

theorem Makes.text_ne_nil {t : Tokenizer π τ} {x : Tile π τ} (h : t.Makes x) : x.text ≠ [] := by
  have hpositive := h.positive
  simp only [Tile.text, Cursor.peek, ne_eq, List.take_eq_nil_iff, h.rest, or_false]
  omega

/-! ### The winner -/

/-- The winner is one of the patterns tried or the best match so far. -/
theorem bestFrom_index (c : Cursor) (ps : List (TokenPattern τ)) :
    ∀ (index : Nat) (best : Option Winner) {w : Winner}, bestFrom c index best ps = some w →
      best = some w ∨ index ≤ w.index ∧ w.index < index + ps.length := by
  induction ps with
  | nil => intro index best w h; exact .inl h
  | cons p ps ih =>
    intro index best w h
    rw [bestFrom] at h
    -- what the pattern finds is kept as the best match or not
    cases hsearch : p.search c with
    | none =>
      rw [hsearch] at h
      refine (ih (index + 1) best h).imp_right fun hin => ?_
      simp only [List.length_cons]
      omega
    | some length =>
      rw [hsearch] at h
      rcases ih (index + 1) _ h with hbest | hin
      · rw [better.eq_def] at hbest
        grind
      · simp only [List.length_cons]
        omega

/-- The winner is one of the patterns. -/
theorem exists_pattern {c : Cursor} {index length : Nat}
    (h : t.longest c = some ⟨index, length⟩) : ∃ p, t.patterns[index]? = some p := by
  have hin := (bestFrom_index c t.patterns 0 none h).resolve_left nofun
  exact ⟨_, List.getElem?_eq_getElem (by simpa using hin)⟩

/-! ### One request -/

/-- A request at a place does one of three things: it ends the run at the end of the
text, it ends the run with an error, or it gives the token of a piece and goes on after
the piece. -/
theorem next_cases (c : Cursor) (p : π) :
    (c.after = [] ∧ t.next ⟨c, some p⟩ = (none, ⟨c, none⟩)) ∨
    (∃ e, t.Refuses c e ∧ e.position = p ∧
      t.next ⟨c, some p⟩ = (some (.error e), ⟨c, none⟩)) ∨
    ∃ x, t.Makes x ∧ x.place = c ∧ x.token.start = p ∧
      t.next ⟨c, some p⟩ = (some (.ok x.token), ⟨x.ending, some x.token.stop⟩) := by
  by_cases hrest : c.after = []
  · exact .inl ⟨hrest, by simp [next, hrest]⟩
  refine .inr ?_
  cases hlongest : t.longest c with
  | none =>
    exact .inl ⟨⟨c.offset, p, .noMatch⟩, ⟨hrest, rfl, .inl ⟨hlongest, rfl⟩⟩, rfl,
      by simp [next, hrest, hlongest]⟩
  | some w =>
    obtain ⟨index, length⟩ := w
    cases length with
    | zero =>
      exact .inl ⟨⟨c.offset, p, .emptyMatch index⟩, ⟨hrest, rfl, .inr ⟨index, hlongest, rfl⟩⟩, rfl,
        by simp [next, hrest, hlongest]⟩
    | succ n =>
      obtain ⟨pattern, hpattern⟩ := t.exists_pattern hlongest
      refine .inr ⟨⟨c, n + 1, p, pattern.build c (n + 1), t.tracker.next p (c.peek (n + 1))⟩,
        ⟨hrest, n.succ_pos, ⟨index, pattern, hlongest, hpattern, rfl⟩, rfl⟩, rfl, rfl, ?_⟩
      simp [next, hrest, hlongest, hpattern, Tile.ending]

/-! ### The course of a run -/

/-- The course of a run from a place and a position on: the pieces that it makes tokens
of, and the error that it ends with, if it does. -/
inductive Lexes : Cursor → π → List (Tile π τ) → Option (LexError π) → Prop
  /-- The text is used up. -/
  | ended {c : Cursor} (p : π) (h : c.after = [])
      (hnext : t.next ⟨c, some p⟩ = (none, ⟨c, none⟩)) : Lexes c p [] none
  /-- Tokenizing cannot go on. -/
  | refused {c : Cursor} {e : LexError π} (h : t.Refuses c e)
      (hnext : t.next ⟨c, some e.position⟩ = (some (.error e), ⟨c, none⟩)) :
      Lexes c e.position [] (some e)
  /-- A token, and the course after it. -/
  | token {x : Tile π τ} {xs : List (Tile π τ)} {failure : Option (LexError π)} (h : t.Makes x)
      (hnext : t.next ⟨x.place, some x.token.start⟩ =
        (some (.ok x.token), ⟨x.ending, some x.token.stop⟩))
      (hrest : Lexes x.ending x.token.stop xs failure) :
      Lexes x.place x.token.start (x :: xs) failure

/-- Every run takes a course: each token shortens the text that is left. -/
theorem exists_lexes (c : Cursor) (p : π) : ∃ tiles failure, t.Lexes c p tiles failure := by
  rcases t.next_cases c p with ⟨hrest, hnext⟩ | ⟨e, he, rfl, hnext⟩ | ⟨x, hx, rfl, rfl, hnext⟩
  · exact ⟨[], none, .ended p hrest hnext⟩
  · exact ⟨[], some e, .refused he hnext⟩
  · have hshorter : x.ending.after.length < x.place.after.length := by
      have hpositive := hx.positive
      have hrest := List.length_pos_iff.2 hx.rest
      rw [Tile.ending, Cursor.length_after_skip]
      omega
    obtain ⟨tiles, failure, h⟩ := exists_lexes x.ending x.token.stop
    exact ⟨x :: tiles, failure, .token hx hnext h⟩
termination_by c.after.length

/-- The items of a run that makes tokens of some pieces and may end with an error. -/
def itemsOf (tiles : List (Tile π τ)) (failure : Option (LexError π)) : List (LexItem π τ) :=
  tiles.map (.ok ·.token) ++ (failure.map .error).toList

end Tokenizer

/-- The text that some pieces make up. -/
def covered (tiles : List (Tile π τ)) : List Char := (tiles.map (·.text)).flatten

/-- The position where the pieces after a position end. -/
def lastStop (p : π) (tiles : List (Tile π τ)) : π := (tiles.getLast?.map (·.token.stop)).getD p

theorem covered_cons (x : Tile π τ) (xs : List (Tile π τ)) :
    covered (x :: xs) = x.text ++ covered xs := rfl

theorem lastStop_cons (p : π) (x : Tile π τ) (xs : List (Tile π τ)) :
    lastStop p (x :: xs) = lastStop x.token.stop xs := by
  cases xs with
  | nil => rfl
  | cons y ys => simp [lastStop, List.getLast?_cons]

namespace Tokenizer.Lexes

variable {t : Tokenizer π τ} {c : Cursor} {p : π} {tiles : List (Tile π τ)}
  {failure : Option (LexError π)}

/-- The requests are answered with the tokens in order, then with the error, and with
nothing from then on. -/
theorem answer (h : t.Lexes c p tiles failure) (k : Nat) :
    t.answer k ⟨c, some p⟩ = (itemsOf tiles failure)[k]? := by
  induction h generalizing k with
  | ended p _ hnext => cases k <;> simp [answer_zero, answer_succ, hnext, itemsOf]
  | refused _ hnext => cases k <;> simp [answer_zero, answer_succ, hnext, itemsOf]
  | token _ hnext _ ih =>
    cases k with
    | zero => simp [answer_zero, hnext, itemsOf]
    | succ k => rw [answer_succ, hnext, ih k]; simp [itemsOf]

theorem items (h : t.Lexes c p tiles failure) (count : Nat) :
    t.items count ⟨c, some p⟩ = (itemsOf tiles failure).take count := by
  induction h generalizing count with
  | ended p _ hnext => cases count <;> simp [Tokenizer.items, hnext, itemsOf]
  | refused _ hnext => cases count <;> simp [Tokenizer.items, hnext, itemsOf]
  | token _ hnext _ ih =>
    cases count with
    | zero => rfl
    | succ count => simp [Tokenizer.items, hnext, ih count, itemsOf]

theorem makes (h : t.Lexes c p tiles failure) : ∀ x ∈ tiles, t.Makes x := by
  induction h with
  | ended | refused => simp
  | token hx _ _ ih => exact List.forall_mem_cons.2 ⟨hx, ih⟩

/-- Every token takes a character at least. -/
theorem length_le (h : t.Lexes c p tiles failure) : tiles.length ≤ c.after.length := by
  induction h with
  | ended | refused => simp
  | @token x xs _ hx _ _ ih =>
    have htext := List.length_pos_iff.2 hx.text_ne_nil
    have hafter := congrArg List.length x.text_append_ending
    simp only [List.length_append] at hafter
    simp only [List.length_cons]
    omega

theorem first (h : t.Lexes c p tiles failure) :
    ∀ x ∈ tiles.head?, x.place = c ∧ x.token.start = p := by
  cases h with
  | ended | refused => simp
  | token => simp

/-- Each piece starts where the one before it ends, in the text and for the tracker. -/
theorem adjacent (h : t.Lexes c p tiles failure) :
    tiles.IsChain fun x y => y.place = x.ending ∧ y.token.start = x.token.stop := by
  induction h with
  | ended | refused => exact .nil
  | token _ _ hrest ih => exact List.isChain_cons.2 ⟨hrest.first, ih⟩

/-- A run that ends silently has used up its text. -/
theorem covered_of_none (h : t.Lexes c p tiles none) : covered tiles = c.after := by
  generalize hfailure : (none : Option (LexError π)) = failure at h
  induction h with
  | ended p hend => exact hend.symm
  | refused => cases hfailure
  | token _ _ _ ih => rw [covered_cons, ih hfailure, Tile.text_append_ending]

/-- A run that ends with an error has text left: the error stands where the pieces end
and has the position that they lead to. -/
theorem rest_of_some {e : LexError π} (h : t.Lexes c p tiles (some e)) :
    (∃ rest, rest ≠ [] ∧ covered tiles ++ rest = c.after) ∧
      e.offset = c.offset + byteLength (covered tiles) ∧ e.position = lastStop p tiles := by
  generalize hfailure : some e = failure at h
  induction h with
  | ended => cases hfailure
  | refused hrefuses =>
    cases hfailure
    exact ⟨⟨_, hrefuses.rest, rfl⟩, hrefuses.offset, rfl⟩
  | @token x _ _ _ _ _ ih =>
    obtain ⟨⟨rest, hne, hrest⟩, hoffset, hposition⟩ := ih hfailure
    refine ⟨⟨rest, hne, ?_⟩, ?_, ?_⟩
    · rw [covered_cons, List.append_assoc, hrest, x.text_append_ending]
    · rw [hoffset, x.offset_ending, covered_cons, byteLength_append, Nat.add_assoc]
    · rw [hposition, lastStop_cons]

/-- Every piece is a piece of the same text, and its offset counts the bytes before it. -/
theorem placed (h : t.Lexes c p tiles failure) (hoffset : c.offset = byteLength c.before.reverse) :
    ∀ x ∈ tiles, x.place.text = c.text ∧ x.place.offset = byteLength x.before := by
  induction h with
  | ended | refused => simp
  | @token x _ _ _ _ _ ih =>
    refine List.forall_mem_cons.2 ⟨⟨rfl, hoffset⟩, fun y hy => ?_⟩
    have hending : x.ending.offset = byteLength x.ending.before.reverse := by
      rw [x.before_ending, byteLength_append, x.offset_ending, hoffset]
      rfl
    simpa [Tile.ending] using ih hending y hy

end Tokenizer.Lexes

/-! ### Counting -/

/-- The positions of a tracker count the text before them: they are a function of that
text, which the tracker keeps up piece by piece. -/
structure Tracker.Counts (tracker : Tracker π) (count : List Char → π) : Prop where
  start : tracker.start = count []
  next (text more : List Char) : tracker.next (count text) more = count (text ++ more)

theorem Tracker.bytes_counts : Tracker.bytes.Counts byteLength :=
  ⟨rfl, fun text more => (byteLength_append text more).symm⟩

theorem Tracker.characters_counts : Tracker.characters.Counts List.length :=
  ⟨rfl, fun _ _ => List.length_append.symm⟩

/-- The positions of tokens and of an error are those that counting the text before them
gives. -/
def Numbers (count : List Char → π) (tiles : List (Tile π τ)) (failure : Option (LexError π)) :
    Prop :=
  (∀ x ∈ tiles, x.token.start = count x.before ∧ x.token.stop = count (x.before ++ x.text)) ∧
    ∀ e ∈ failure, e.position = count (covered tiles)

/-- A relation of positions to the texts before them that a tracker keeps up piece by
piece. -/
structure Tracker.Keeps (tracker : Tracker π) (Fits : π → List Char → Prop) : Prop where
  start : Fits tracker.start []
  next {p : π} {text : List Char} (h : Fits p text) (more : List Char) :
    Fits (tracker.next p more) (text ++ more)

theorem Tracker.Counts.keeps {tracker : Tracker π} {count : List Char → π}
    (h : tracker.Counts count) : tracker.Keeps fun p text => p = count text where
  start := h.start
  next hp more := by rw [hp, h.next]

/-- **What a tracker keeps holds all along a run**: of every position and the text before
it. -/
theorem Tokenizer.Lexes.kept {t : Tokenizer π τ} {c : Cursor} {p : π}
    {tiles : List (Tile π τ)} {failure : Option (LexError π)} {Fits : π → List Char → Prop}
    (h : t.Lexes c p tiles failure) (hkeeps : t.tracker.Keeps Fits)
    (hp : Fits p c.before.reverse) :
    (∀ x ∈ tiles, Fits x.token.start x.before ∧ Fits x.token.stop (x.before ++ x.text)) ∧
      ∀ e ∈ failure, Fits e.position (c.before.reverse ++ covered tiles) := by
  induction h with
  | ended => simp
  | refused => simpa [covered] using hp
  | @token x _ _ hx _ _ ih =>
    have hstop : Fits x.token.stop (x.before ++ x.text) := hx.stop ▸ hkeeps.next hp x.text
    obtain ⟨hrest, hfailure⟩ := ih (x.before_ending ▸ hstop)
    refine ⟨List.forall_mem_cons.2 ⟨⟨hp, hstop⟩, hrest⟩, fun e he => ?_⟩
    rw [covered_cons, ← List.append_assoc]
    exact x.before_ending ▸ hfailure e he

/-! ### Tilings -/

/-- What a run over a text comes to: pieces of the text with their tokens, and the error
that it ends with, if it does. -/
structure Tokenizer.Tiling (t : Tokenizer π τ) (text : List Char) (tiles : List (Tile π τ))
    (failure : Option (LexError π)) : Prop where
  /-- The requests are answered with the tokens, then with the error, then with nothing. -/
  answers (k : Nat) : t.answer k (t.begin text) = (itemsOf tiles failure)[k]?
  /-- These are all the items that are listed. -/
  listed : t.tokenize text = itemsOf tiles failure
  few : tiles.length ≤ text.length
  /-- Each piece is a longest match and gives the token of its pattern. -/
  makes : ∀ x ∈ tiles, t.Makes x
  nonempty : ∀ x ∈ tiles, x.text ≠ []
  /-- Each piece stands in the text, as many bytes from its start as its offset says. -/
  placed : ∀ x ∈ tiles, x.place.text = text ∧ x.place.offset = byteLength x.before
  first : ∀ x ∈ tiles.head?, x.place.offset = 0 ∧ x.token.start = t.tracker.start
  adjacent : tiles.IsChain fun x y =>
    y.place.offset = x.place.offset + byteLength x.text ∧ y.token.start = x.token.stop
  stops : ∀ x ∈ tiles, x.token.stop = t.tracker.next x.token.start x.text
  /-- Without an error the pieces make up the text. -/
  whole : failure = none → covered tiles = text
  /-- With an error they make up the text before it, which is not all of it. -/
  cut : ∀ e ∈ failure, e.offset = byteLength (covered tiles) ∧ e.offset < byteLength text ∧
    (∃ rest, covered tiles ++ rest = text) ∧ e.position = lastStop t.tracker.start tiles

theorem byteLength_pos {text : List Char} (h : text ≠ []) : 0 < byteLength text := by
  cases text with
  | nil => exact absurd rfl h
  | cons c text =>
    have := c.utf8Size_pos
    simp only [byteLength]
    omega

/-- The course of a run from the start of a text is a tiling of the text. -/
theorem Tokenizer.Lexes.tiling {t : Tokenizer π τ} {text : List Char} {tiles : List (Tile π τ)}
    {failure : Option (LexError π)} (h : t.Lexes (.start text) t.tracker.start tiles failure) :
    t.Tiling text tiles failure where
  answers := h.answer
  listed := by
    have hshort : (itemsOf tiles failure).length ≤ text.length + 1 := by
      have hlength : tiles.length ≤ text.length := h.length_le
      cases failure <;> simp [itemsOf] <;> omega
    rw [tokenize, begin, h.items, List.take_of_length_le hshort]
  few := h.length_le
  makes := h.makes
  nonempty x hx := (h.makes x hx).text_ne_nil
  placed x hx := by simpa using h.placed rfl x hx
  first x hx := by
    obtain ⟨hplace, hstart⟩ := h.first x hx
    exact ⟨by rw [hplace]; rfl, hstart⟩
  adjacent := h.adjacent.imp fun x y hxy => ⟨by rw [hxy.1, x.offset_ending], hxy.2⟩
  stops x hx := (h.makes x hx).stop
  whole hnone := by subst hnone; exact h.covered_of_none
  cut e he := by
    obtain rfl : failure = some e := he
    obtain ⟨⟨rest, hne, hrest⟩, hoffset, hposition⟩ := h.rest_of_some
    have hlength := congrArg byteLength hrest
    have hpos := byteLength_pos hne
    simp only [Cursor.start, byteLength_append, Nat.zero_add] at hlength hoffset
    exact ⟨hoffset, by omega, ⟨rest, hrest⟩, hposition⟩

/-- Every run tiles its text, and where the tracker counts, its positions count the text
before them. -/
theorem Tokenizer.exists_tiling (t : Tokenizer π τ) (text : List Char) :
    ∃ tiles failure, t.Tiling text tiles failure ∧
      ∀ count, t.tracker.Counts count → Numbers count tiles failure := by
  obtain ⟨tiles, failure, h⟩ := t.exists_lexes (.start text) t.tracker.start
  refine ⟨tiles, failure, h.tiling, fun count hcounts => ?_⟩
  simpa [Cursor.start, Numbers] using h.kept hcounts.keeps hcounts.start

/-- **Tokenizing tiles the text.** For all patterns and every text, whatever the tracker:
the run gives the tokens of non-empty pieces of the text, no more than it has characters,
from its start on and each where the last one ends; then it ends, silently at the end of
the text or with one error before it. The tracker's positions are passed on from piece
to piece, and they are offsets where it counts bytes or characters. -/
theorem tokenize_tiles (patterns : List (TokenPattern τ)) (text : List Char) :
    (∀ (π : Type) (tracker : Tracker π), ∃ tiles failure,
      (Tokenizer.mk tracker patterns).Tiling text tiles failure) ∧
    (∃ tiles failure, (Tokenizer.mk .bytes patterns).Tiling text tiles failure ∧
      Numbers byteLength tiles failure) ∧
    ∃ tiles failure, (Tokenizer.mk .characters patterns).Tiling text tiles failure ∧
      Numbers List.length tiles failure := by
  refine ⟨fun π tracker => ?_, ?_, ?_⟩
  · obtain ⟨tiles, failure, h, -⟩ := Tokenizer.exists_tiling ⟨tracker, patterns⟩ text
    exact ⟨tiles, failure, h⟩
  · obtain ⟨tiles, failure, h, hcount⟩ := Tokenizer.exists_tiling ⟨.bytes, patterns⟩ text
    exact ⟨tiles, failure, h, hcount _ Tracker.bytes_counts⟩
  · obtain ⟨tiles, failure, h, hcount⟩ := Tokenizer.exists_tiling ⟨.characters, patterns⟩ text
    exact ⟨tiles, failure, h, hcount _ Tracker.characters_counts⟩

end LazyGrammar

import LazyGrammar.Proofs.Tokenizer.Tiling
import Mathlib.Order.Bounds.Basic

/-!
# LazyGrammar.Proofs.Tokenizer.LongestMatch

**The longest match wins, and the first pattern among equals** (`maximal_munch`). Wherever a
run has got to, the item that it gives next is decided by the matches of all patterns there:
by the greatest length, and by the least index with that length.

The winner is found by a scan with a strict comparison. What the scan keeps is the best of the
matches seen so far (`Best`), so a pattern that does not match leaves it as it is, and one that
matches leaves it unless its match is longer (`Best.better`).

Lengths count characters. Of patterns whose searches count bytes the winner is the same in
bytes (`best_bytes`), as long as the searches end between characters.
-/

namespace LazyGrammar

variable {π τ : Type}

namespace Tokenizer

/-! ### Matches -/

/-- Of some patterns, the one with an index matches so many characters at a place. -/
def MatchesIn (ps : List (TokenPattern τ)) (c : Cursor) (index length : Nat) : Prop :=
  ∃ p, ps[index]? = some p ∧ p.search c = some length

/-- The pattern of a tokenizer with an index matches so many characters at a place. -/
def Matches (t : Tokenizer π τ) (c : Cursor) (index length : Nat) : Prop :=
  MatchesIn t.patterns c index length

variable {ps : List (TokenPattern τ)} {p : TokenPattern τ} {c : Cursor} {index length : Nat}

theorem MatchesIn.lt (h : MatchesIn ps c index length) : index < ps.length := by
  obtain ⟨p, hp, -⟩ := h
  exact (List.getElem?_eq_some_iff.1 hp).1

/-- One more pattern adds its own match. -/
theorem matchesIn_concat : MatchesIn (ps ++ [p]) c index length ↔
    MatchesIn ps c index length ∨ index = ps.length ∧ p.search c = some length := by
  constructor
  · intro h
    obtain ⟨q, hq, hsearch⟩ := h
    rcases Nat.lt_or_ge index ps.length with hlt | hge
    · rw [List.getElem?_append_left hlt] at hq
      exact Or.inl ⟨q, hq, hsearch⟩
    · rw [List.getElem?_append_right hge, List.getElem?_singleton] at hq
      split at hq
      · cases hq
        exact Or.inr ⟨by omega, hsearch⟩
      · cases hq
  · intro h
    rcases h with h | ⟨rfl, hsearch⟩
    · obtain ⟨q, hq, hsearch⟩ := h
      exact ⟨q, (List.getElem?_append_left (MatchesIn.lt ⟨q, hq, hsearch⟩)).trans hq, hsearch⟩
    · exact ⟨p, List.getElem?_concat_length .., hsearch⟩

/-! ### The scan -/

/-- The best of some matches: none if there are none, otherwise the first of the longest. -/
def Best (D : Nat → Nat → Prop) : Option Winner → Prop
  | none => ∀ i n, ¬ D i n
  | some w => D w.index w.length ∧ ∀ i n, D i n → n < w.length ∨ n = w.length ∧ w.index ≤ i

variable {D D' : Nat → Nat → Prop} {best : Option Winner}

theorem Best.congr (h : Best D best) (hD : ∀ i n, D' i n ↔ D i n) : Best D' best := by
  obtain rfl : D' = D := funext fun i => funext fun n => propext (hD i n)
  exact h

/-- A match of a later pattern replaces the best one only if it is longer. -/
theorem Best.better (h : Best D best) (hlater : ∀ i n, D i n → i < index) :
    Best (fun i n => D i n ∨ i = index ∧ n = length) (better best ⟨index, length⟩) := by
  cases best with
  | none =>
      refine ⟨Or.inr ⟨rfl, rfl⟩, fun i _ hmatch => ?_⟩
      rcases hmatch with hmatch | ⟨rfl, rfl⟩
      · exact absurd hmatch (h i _)
      · exact Or.inr ⟨rfl, Nat.le_refl _⟩
  | some w =>
      obtain ⟨hw, hbest⟩ := h
      by_cases hlonger : w.length < length
      · rw [Tokenizer.better, if_pos hlonger]
        refine ⟨Or.inr ⟨rfl, rfl⟩, fun i n hmatch => ?_⟩
        rcases hmatch with hmatch | ⟨rfl, rfl⟩
        · have := hbest i n hmatch
          exact Or.inl (by simp only; omega)
        · exact Or.inr ⟨rfl, Nat.le_refl _⟩
      · rw [Tokenizer.better, if_neg hlonger]
        refine ⟨Or.inl hw, fun i n hmatch => ?_⟩
        rcases hmatch with hmatch | ⟨rfl, rfl⟩
        · exact hbest i n hmatch
        · -- a match that is as long as the best one comes after it
          have := hlater _ _ hw
          omega

/-- The scan of further patterns keeps the best match. -/
theorem best_bestFrom (tried ps : List (TokenPattern τ)) (best : Option Winner)
    (h : Best (MatchesIn tried c) best) :
    Best (MatchesIn (tried ++ ps) c) (bestFrom c tried.length best ps) := by
  induction ps generalizing tried best with
  | nil =>
      rw [List.append_nil]
      exact h
  | cons p ps ih =>
      have hmore := ih (tried ++ [p])
      rw [List.append_assoc, List.singleton_append, List.length_append, List.length_singleton]
        at hmore
      rw [bestFrom]
      cases hsearch : p.search c with
      | none => exact hmore best (h.congr fun i n => by simp [matchesIn_concat, hsearch])
      | some length =>
          refine hmore _ ((h.better fun i n => MatchesIn.lt).congr fun i n => ?_)
          simp [matchesIn_concat, hsearch, eq_comm (a := length)]

/-- **The winner is the first of the longest matches**, and there is none only if no pattern
matches. -/
theorem best_longest (t : Tokenizer π τ) (c : Cursor) : Best (t.Matches c) (t.longest c) :=
  best_bestFrom [] t.patterns none fun i _ h => absurd h.lt (Nat.not_lt_zero i)

theorem Best.isGreatest {w : Winner} (h : Best D (some w)) :
    IsGreatest {n | ∃ i, D i n} w.length := by
  refine ⟨⟨w.index, h.1⟩, fun n hn => ?_⟩
  obtain ⟨i, hi⟩ := hn
  have := h.2 i n hi
  omega

theorem Best.isLeast {w : Winner} (h : Best D (some w)) : IsLeast {i | D i w.length} w.index := by
  refine ⟨h.1, fun i hi => ?_⟩
  have := h.2 i w.length hi
  omega

end Tokenizer

/-! ### Searches that count bytes -/

@[simp] theorem charCount_zero (text : List Char) : charCount text 0 = 0 := by
  cases text <;> simp [charCount]

/-- The bytes of some first characters count as those characters. -/
theorem charCount_take (text : List Char) {n : Nat} (hle : n ≤ text.length) :
    charCount text (byteLength (text.take n)) = n := by
  induction text generalizing n with
  | nil => exact (Nat.le_zero.1 hle).symm
  | cons c text ih =>
      cases n with
      | zero => exact charCount_zero (c :: text)
      | succ n =>
          have hsize := c.utf8Size_pos
          have hne : c.utf8Size + byteLength (text.take n) ≠ 0 := by omega
          rw [List.take_succ_cons, byteLength, charCount, if_neg hne, Nat.add_sub_cancel_left,
            ih (Nat.le_of_succ_le_succ hle)]

/-- More characters take more bytes. -/
theorem Cursor.byteLength_peek_lt (c : Cursor) {m n : Nat} (hlt : m < n)
    (hle : n ≤ c.after.length) : byteLength (c.peek m) < byteLength (c.peek n) := by
  obtain ⟨k, rfl⟩ := Nat.exists_eq_add_of_lt hlt
  have hmore : (c.after.drop m).take (k + 1) ≠ [] := by
    rw [Ne, ← List.length_eq_zero_iff, List.length_take, List.length_drop]
    omega
  have hpos := byteLength_pos hmore
  rw [Cursor.peek, Cursor.peek, Nat.add_assoc, List.take_add, byteLength_append]
  omega

section Bytes

variable {find : Cursor → Option Nat} {c : Cursor} {bytes : Nat}

/-- A match that ends between characters takes up the bytes of the characters counted. -/
theorem EndsBetween.counted (h : EndsBetween find) (hfind : find c = some bytes) :
    charCount c.after bytes ≤ c.after.length ∧
      byteLength (c.peek (charCount c.after bytes)) = bytes := by
  obtain ⟨n, hle, rfl⟩ := h c bytes hfind
  rw [Cursor.peek, charCount_take c.after hle]
  exact ⟨hle, rfl⟩

namespace Tokenizer

variable {finds : List ((Cursor → Option Nat) × (Cursor → Nat → τ))}

/-- The search with an index matches so many bytes at a place. -/
def FindsIn (finds : List ((Cursor → Option Nat) × (Cursor → Nat → τ))) (c : Cursor)
    (index bytes : Nat) : Prop :=
  ∃ f, finds[index]? = some f ∧ f.1 c = some bytes

theorem matchesIn_ofBytes {index length : Nat} :
    MatchesIn (finds.map fun f => .ofBytes f.1 f.2) c index length ↔
      ∃ bytes, FindsIn finds c index bytes ∧ charCount c.after bytes = length := by
  constructor
  · intro h
    obtain ⟨p, hp, hsearch⟩ := h
    rw [List.getElem?_map, Option.map_eq_some_iff] at hp
    obtain ⟨f, hf, rfl⟩ := hp
    obtain ⟨bytes, hfind, hcount⟩ := Option.map_eq_some_iff.1 hsearch
    exact ⟨bytes, ⟨f, hf, hfind⟩, hcount⟩
  · intro h
    obtain ⟨bytes, ⟨f, hf, hfind⟩, hcount⟩ := h
    refine ⟨.ofBytes f.1 f.2, ?_, Option.map_eq_some_iff.2 ⟨bytes, hfind, hcount⟩⟩
    rw [List.getElem?_map, hf, Option.map_some]

/-- **The winner in characters is the winner in bytes**: of searches that end between
characters, the first of those that match most bytes. -/
theorem best_bytes {t : Tokenizer π τ} (ht : t.patterns = finds.map fun f => .ofBytes f.1 f.2)
    (hends : ∀ f ∈ finds, EndsBetween f.1) (c : Cursor) :
    Best (FindsIn finds c)
      ((t.longest c).map fun w => ⟨w.index, byteLength (c.peek w.length)⟩) := by
  have hcounted : ∀ {i bytes}, FindsIn finds c i bytes →
      charCount c.after bytes ≤ c.after.length ∧
        byteLength (c.peek (charCount c.after bytes)) = bytes := by
    intro i bytes hfinds
    obtain ⟨f, hf, hfind⟩ := hfinds
    exact (hends f (List.mem_of_getElem? hf)).counted hfind
  have hbest : Best _ (t.longest c) :=
    (t.best_longest c).congr fun i n => by rw [Matches, ht, matchesIn_ofBytes]
  cases hlongest : t.longest c with
  | none =>
      rw [hlongest] at hbest
      exact fun i bytes hfinds => hbest i _ ⟨bytes, hfinds, rfl⟩
  | some w =>
      rw [hlongest] at hbest
      obtain ⟨⟨most, hmost, hlength⟩, hbest⟩ := hbest
      have hwon : FindsIn finds c w.index (byteLength (c.peek w.length)) := by
        rw [← hlength, (hcounted hmost).2]
        exact hmost
      refine ⟨hwon, fun i bytes hfinds => ?_⟩
      obtain ⟨-, hexact⟩ := hcounted hfinds
      rcases hbest i _ ⟨bytes, hfinds, rfl⟩ with hless | ⟨hequal, hfirst⟩
      · have hfew := c.byteLength_peek_lt hless (hlength ▸ (hcounted hmost).1)
        exact Or.inl (hexact ▸ hfew)
      · exact Or.inr ⟨hexact ▸ hequal ▸ rfl, hfirst⟩

end Tokenizer

end Bytes

/-! ### Places that a run gets to -/

/-- A run stands at a place of the text, with as many bytes before it as its offset says. -/
def Lexing.At (text : List Char) (run : Lexing π) : Prop :=
  run.cursor.text = text ∧ run.cursor.offset = byteLength run.cursor.before.reverse

/-- More characters take no fewer bytes. -/
theorem Cursor.offset_skip_le (c : Cursor) {m n : Nat} (hle : m ≤ n) :
    (c.skip m).offset ≤ (c.skip n).offset := by
  obtain ⟨k, rfl⟩ := Nat.exists_eq_add_of_le hle
  simp only [Cursor.skip, Cursor.peek, List.take_add, byteLength_append]
  omega

namespace Tokenizer

variable {t : Tokenizer π τ} {text : List Char} {run : Lexing π}

theorem at_next (h : run.At text) : (t.next run).2.At text := by
  obtain ⟨c, position⟩ := run
  cases position with
  | none => exact h
  | some p =>
      rcases t.next_cases c p with ⟨-, hnext⟩ | ⟨e, -, -, hnext⟩ | ⟨x, -, rfl, -, hnext⟩
      · rw [hnext]
        exact h
      · rw [hnext]
        exact h
      · rw [hnext]
        refine ⟨(Cursor.text_skip ..).trans h.1, ?_⟩
        rw [x.before_ending, byteLength_append, x.offset_ending, h.2]
        rfl

theorem at_later (h : run.At text) (k : Nat) : (t.later k run).At text := by
  induction k generalizing run with
  | zero => exact h
  | succ k ih => exact ih (at_next h)

/-- Requests are made one after another, so the last one is made of the run that the others
lead to. -/
theorem next_later (t : Tokenizer π τ) (k : Nat) (run : Lexing π) :
    t.next (t.later k run) = (t.answer k run, t.later (k + 1) run) := by
  induction k generalizing run with
  | zero => rfl
  | succ k ih => exact ih (t.next run).2

/-- **Maximal munch, with ties for the first pattern.** At every place of the text that a run
gets to, after any number of requests and before the end of the text: if a pattern has a match
that is not empty, the item is the token of the pattern with the least index among those with
the longest match, for that match, and the run goes on after it; if patterns match but all with
nothing, it is an error that names the first of them; if none matches, it is an error that says
so. An error carries the offset of the place. -/
theorem maximal_munch (t : Tokenizer π τ) (text : List Char) (k : Nat) {c : Cursor} {p : π}
    (hrun : t.later k (t.begin text) = ⟨c, some p⟩) (hrest : c.after ≠ []) :
    (c.text = text ∧ c.offset = byteLength c.before.reverse) ∧
    ((∃ j m, t.Matches c j m ∧ 0 < m) →
      ∃ i n pattern, IsGreatest {m | ∃ j, t.Matches c j m} n ∧ IsLeast {j | t.Matches c j n} i ∧
        t.patterns[i]? = some pattern ∧
        t.answer k (t.begin text) =
          some (.ok ⟨p, pattern.build c n, t.tracker.next p (c.peek n)⟩) ∧
        t.later (k + 1) (t.begin text) = ⟨c.skip n, some (t.tracker.next p (c.peek n))⟩ ∧
        ∀ j m, t.Matches c j m → (c.skip m).offset ≤ (c.skip n).offset) ∧
    ((∃ j m, t.Matches c j m) → (∀ j m, t.Matches c j m → m = 0) →
      ∃ i, IsLeast {j | ∃ m, t.Matches c j m} i ∧
        t.answer k (t.begin text) = some (.error ⟨c.offset, p, .emptyMatch i⟩)) ∧
    ((∀ j m, ¬ t.Matches c j m) →
      t.answer k (t.begin text) = some (.error ⟨c.offset, p, .noMatch⟩)) := by
  have hplace : (t.later k (t.begin text)).At text := at_later ⟨Cursor.text_start text, rfl⟩ k
  have hnext := t.next_later k (t.begin text)
  rw [hrun] at hplace hnext
  have hbest := t.best_longest c
  refine ⟨hplace, ?_⟩
  cases hlongest : t.longest c with
  | none =>
      rw [hlongest] at hbest
      have herror : t.answer k (t.begin text) = some (.error ⟨c.offset, p, .noMatch⟩) := by
        simpa [next, hrest, hlongest] using (congrArg Prod.fst hnext).symm
      refine ⟨fun h => ?_, fun h => ?_, fun _ => herror⟩
      · obtain ⟨j, m, hmatch, -⟩ := h
        exact absurd hmatch (hbest j m)
      · obtain ⟨j, m, hmatch⟩ := h
        exact absurd hmatch (hbest j m)
  | some w =>
      rw [hlongest] at hbest
      obtain ⟨i, length⟩ := w
      have hgreatest := hbest.isGreatest
      refine ⟨fun h => ?_, fun _ hempty => ?_, fun h => absurd hbest.1 (h i length)⟩
      · obtain ⟨j, m, hmatch, hpositive⟩ := h
        have hlength : 0 < length := hpositive.trans_le (hgreatest.2 ⟨j, hmatch⟩)
        obtain ⟨n, rfl⟩ : ∃ n, length = n + 1 :=
          Nat.exists_eq_succ_of_ne_zero (Nat.ne_of_gt hlength)
        obtain ⟨pattern, hpattern⟩ := t.exists_pattern hlongest
        simp only [next, hrest, hlongest, hpattern, List.isEmpty_iff, if_false, Prod.mk.injEq]
          at hnext
        exact ⟨i, n + 1, pattern, hgreatest, hbest.isLeast, hpattern, hnext.1.symm, hnext.2.symm,
          fun j m hmatch => c.offset_skip_le (hgreatest.2 ⟨j, hmatch⟩)⟩
      · obtain rfl : length = 0 := hempty i length hbest.1
        have hleast : {j | ∃ m, t.Matches c j m} = {j | t.Matches c j 0} := by
          ext j
          refine ⟨fun hj => ?_, fun hj => ⟨0, hj⟩⟩
          obtain ⟨m, hmatch⟩ := hj
          exact hempty j m hmatch ▸ hmatch
        refine ⟨i, hleast ▸ hbest.isLeast, ?_⟩
        simpa [next, hrest, hlongest] using (congrArg Prod.fst hnext).symm

end Tokenizer

/-- A pattern that matches a word. -/
def TokenPattern.literal (word : List Char) : TokenPattern (List Char) where
  search c := if word.isPrefixOf c.after then some word.length else none
  build c n := c.peek n

/-- Patterns of which two match the same, one matches less and two match nothing. -/
def Tokenizer.tied : Tokenizer Nat (List Char) :=
  ⟨.bytes, [[], ['a', 'b'], ['a'], ['a', 'b'], []].map .literal⟩

/-- After one token the longest match is taken again, and after two only empty ones are left. -/
theorem tied_maximal_munch :
    Tokenizer.tied.later 1 (Tokenizer.tied.begin ['a', 'b', 'a', 'b', 'c'])
      = ⟨⟨['b', 'a'], ['a', 'b', 'c'], 2⟩, some 2⟩ ∧
    Tokenizer.tied.later 2 (Tokenizer.tied.begin ['a', 'b', 'a', 'b', 'c'])
      = ⟨⟨['b', 'a', 'b', 'a'], ['c'], 4⟩, some 4⟩ ∧
    (∃ i n pattern,
      IsGreatest {m | ∃ j, Tokenizer.tied.Matches ⟨['b', 'a'], ['a', 'b', 'c'], 2⟩ j m} n ∧
      IsLeast {j | Tokenizer.tied.Matches ⟨['b', 'a'], ['a', 'b', 'c'], 2⟩ j n} i ∧
      Tokenizer.tied.patterns[i]? = some pattern ∧
      Tokenizer.tied.answer 1 (Tokenizer.tied.begin ['a', 'b', 'a', 'b', 'c'])
        = some (.ok ⟨2, pattern.build ⟨['b', 'a'], ['a', 'b', 'c'], 2⟩ n,
            2 + byteLength (['a', 'b', 'c'].take n)⟩)) ∧
    ∃ i, IsLeast {j | ∃ m, Tokenizer.tied.Matches ⟨['b', 'a', 'b', 'a'], ['c'], 4⟩ j m} i ∧
      Tokenizer.tied.answer 2 (Tokenizer.tied.begin ['a', 'b', 'a', 'b', 'c'])
        = some (.error ⟨4, 4, .emptyMatch i⟩) := by
  have hone : Tokenizer.tied.later 1 (Tokenizer.tied.begin ['a', 'b', 'a', 'b', 'c'])
      = ⟨⟨['b', 'a'], ['a', 'b', 'c'], 2⟩, some 2⟩ := rfl
  have htwo : Tokenizer.tied.later 2 (Tokenizer.tied.begin ['a', 'b', 'a', 'b', 'c'])
      = ⟨⟨['b', 'a', 'b', 'a'], ['c'], 4⟩, some 4⟩ := rfl
  obtain ⟨-, hlongest, -, -⟩ := Tokenizer.maximal_munch _ _ 1 hone (by decide)
  obtain ⟨-, -, hempty, -⟩ := Tokenizer.maximal_munch _ _ 2 htwo (by decide)
  refine ⟨hone, htwo, ?_, hempty ⟨0, 0, _, rfl, rfl⟩ ?_⟩
  · obtain ⟨i, n, pattern, hn, hi, hpattern, hanswer, -⟩ :=
      hlongest ⟨2, 1, ⟨_, rfl, rfl⟩, Nat.one_pos⟩
    exact ⟨i, n, pattern, hn, hi, hpattern, hanswer⟩
  · intro j m hmatch
    obtain ⟨pattern, hpattern, hsearch⟩ := hmatch
    match j with
    | 0 | 4 =>
        cases hpattern
        exact (Option.some.inj hsearch).symm
    | 1 | 2 | 3 =>
        cases hpattern
        cases hsearch
    | j + 5 => cases hpattern

end LazyGrammar

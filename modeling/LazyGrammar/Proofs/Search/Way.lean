import LazyGrammar.Search.Stream
import LazyGrammar.Search.Source

/-!
# LazyGrammar.Proofs.Search.Way

**Ways through the input.** A place leads to another one when the tokens between the
two can be taken one after the other; the count of consumed tokens and the index of
the next token then go up together. An outcome **fits** a place when the place leads to
it and, if it is a failure, when its error says what really stands there.
-/

namespace LazyGrammar

variable {τ α : Type} {src : Source τ} {p q r : Place}

/-! ### Places -/

/-- `p` leads to a place by taking tokens. -/
inductive Source.Leads (src : Source τ) (p : Place) : Place → Prop
  | refl : Leads src p p
  | advance {q : Place} {t : τ} (way : Leads src p q) (htoken : src.token q.next = some t) :
      Leads src p q.advance

namespace Source.Leads

theorem trans (hpq : src.Leads p q) (hqr : src.Leads q r) : src.Leads p r := by
  induction hqr with
  | refl => exact hpq
  | advance _ htoken ih => exact ih.advance htoken

theorem next_le (h : src.Leads p q) : p.next ≤ q.next := by
  induction h with
  | refl => exact Nat.le_refl _
  | advance _ _ ih => exact Nat.le_succ_of_le ih

/-- The two numbers of a place go up together. -/
theorem consumed_add_next (h : src.Leads p q) : q.consumed + p.next = p.consumed + q.next := by
  induction h with
  | refl => rfl
  | advance _ _ ih => simp only [Place.advance]; omega

theorem consumed_le (h : src.Leads p q) : p.consumed ≤ q.consumed := by
  have hle := h.next_le
  have hsum := h.consumed_add_next
  omega

/-- A way that gets anywhere starts with a token. -/
theorem eq_or_token (h : src.Leads p q) : q = p ∨ (∃ t, src.token p.next = some t) ∧
    p.next < q.next := by
  induction h with
  | refl => exact Or.inl rfl
  | advance way htoken ih =>
      right
      rcases ih with rfl | ⟨hfirst, hlt⟩
      · exact ⟨⟨_, htoken⟩, Nat.lt_succ_self _⟩
      · exact ⟨hfirst, Nat.lt_succ_of_lt hlt⟩

/-- A way through a list stays within it. -/
theorem next_le_length {tokens : List τ} (h : (Source.ofList tokens).Leads p q)
    (hp : p.next ≤ tokens.length) : q.next ≤ tokens.length := by
  cases h with
  | refl => exact hp
  | advance _ htoken =>
      rw [Source.token_ofList] at htoken
      exact (List.getElem?_eq_some_iff.1 htoken).1

/-- A way through a list that gets anywhere leaves fewer tokens. -/
theorem eq_or_lt_length {tokens : List τ} (h : (Source.ofList tokens).Leads p q) :
    q = p ∨ p.next < q.next ∧ p.next < tokens.length := by
  refine h.eq_or_token.imp id ?_
  intro hfar
  obtain ⟨⟨t, htoken⟩, hlt⟩ := hfar
  rw [Source.token_ofList] at htoken
  exact ⟨hlt, (List.getElem?_eq_some_iff.1 htoken).1⟩

end Source.Leads

/-! ### Outcomes -/

/-- An error says what stands at a place: its position is that of the place, and so is
the token it has found. -/
def ParseError.Fits (src : Source τ) (p : Place) (e : ParseError τ) : Prop :=
  e.consumed = p.consumed ∧
    match e.reason with
    | .unexpected t | .expectedEnd t => src.token p.next = some t
    | .unexpectedEnd => src.token p.next = none
    | .leftRecursion _ => True

/-- An outcome that a rule tried at `p` can have. -/
structure Outcome.Fits (src : Source τ) (p : Place) (o : Outcome τ α) : Prop where
  way : src.Leads p o.place
  error : ∀ e, o.result = .error e → e.Fits src o.place

namespace Outcome

theorem fits_success (way : src.Leads p q) (v : α) : (success q v : Outcome τ α).Fits src p :=
  ⟨way, fun _ h => by cases h⟩

theorem fits_failure {e : ParseError τ} {i : Nat} (way : src.Leads p ⟨e.consumed, i⟩)
    (herror : e.Fits src ⟨e.consumed, i⟩) : (failure e i : Outcome τ α).Fits src p := by
  refine ⟨way, fun e' h => ?_⟩
  cases h
  exact herror

theorem fits_circle (way : src.Leads p q) (info : RuleInfo) :
    (failure ⟨q.consumed, .leftRecursion info⟩ q.next : Outcome τ α).Fits src p :=
  fits_failure way ⟨rfl, trivial⟩

theorem Fits.of_leads {o : Outcome τ α} (h : o.Fits src q) (way : src.Leads p q) :
    o.Fits src p :=
  ⟨way.trans h.way, h.error⟩

/-- A failure that fits is the failure made of its error and what is left. -/
theorem Fits.eq_failure {o : Outcome τ α} {e : ParseError τ} (h : o.Fits src p)
    (herror : o.result = .error e) : o = failure e o.place.next := by
  -- a failure is put down at the position of its error, which is that of the place
  have hconsumed := (h.error e herror).1
  obtain ⟨⟨c, i⟩, result⟩ := o
  simp only at hconsumed herror
  rw [herror, failure, hconsumed]

/-- A failure made again of an error that fits, and of what is left, fits. -/
theorem Fits.failure {o : Outcome τ α} {β : Type} {e : ParseError τ} (h : o.Fits src p)
    (herror : o.result = .error e) : (Outcome.failure e o.place.next : Outcome τ β).Fits src p := by
  have hfits := h.error e herror
  have hplace : (⟨e.consumed, o.place.next⟩ : Place) = o.place := by rw [hfits.1]
  refine fits_failure ?_ ?_
  · rw [hplace]; exact h.way
  · rw [hplace]; exact hfits

end Outcome

end LazyGrammar

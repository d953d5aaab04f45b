import LazyGrammar.Proofs.Search.Likeness
import LazyGrammar.Proofs.Search.OnDemand
import LazyGrammar.Proofs.Search.Readers

/-!
# LazyGrammar.Proofs.Search.Fidelity

**Outcomes are faithful to the input.** The count of consumed tokens, the tokens that
are left and the error of a failure are found apart from each other, yet they always
tell of one place in the input.

Nothing is asked of the grammar: a search through undefined rules, functions that give
up, or rules that are made meanwhile gives faithful outcomes until it stops.
-/

namespace LazyGrammar

variable {τ α σ : Type}

/-! ### Faithful outcomes -/

/-- The tokens that an outcome leaves. -/
def Outcome.remaining (tokens : List τ) (o : Outcome τ α) : List τ :=
  (Source.ofList tokens).tokensFrom tokens.length o.place.next

/-- An error of a search that starts with a count of `c` names what stands at its position:
the token there, or the end of the input, or no token at all. -/
def ParseError.Names (tokens : List τ) (c : Nat) (e : ParseError τ) : Prop :=
  match e.reason with
  | .unexpected _ | .expectedEnd _ => ∃ t, e.found = some t ∧ tokens[e.consumed - c]? = some t
  | .unexpectedEnd => e.found = none ∧ e.consumed = c + tokens.length
  | .leftRecursion _ => e.found = none

/-- An outcome of a search that starts with a count of `c` tells of one place. -/
structure Outcome.Faithful (tokens : List τ) (c : Nat) (o : Outcome τ α) : Prop where
  start_le : c ≤ o.place.consumed
  le_end : o.place.consumed ≤ c + tokens.length
  remaining : o.remaining tokens = tokens.drop (o.place.consumed - c)
  consumed : ∀ e, o.result = .error e → e.consumed = o.place.consumed
  names : ∀ e, o.result = .error e → e.Names tokens c
  left : ∀ e t, o.result = .error e → e.found = some t → o.remaining tokens ≠ []
  exhausted : ∀ e, o.result = .error e → e.reason = .unexpectedEnd → o.remaining tokens = []

variable {tokens : List τ} {c : Nat} {q : Place} {e : ParseError τ} {o : Outcome τ α}

/-- Outcomes that are alike leave the same tokens. -/
theorem remaining_eq_of_like {R : RuleInfo → RuleInfo → Prop} {os os' : List (Outcome τ α)}
    (h : List.Forall₂ (Outcome.Like R) os os') (tokens : List τ) :
    os.map (·.remaining tokens) = os'.map (·.remaining tokens) := by
  induction h with
  | nil => rfl
  | cons ho _ ih =>
      rw [List.map_cons, List.map_cons, ih, Outcome.remaining, Outcome.remaining, ho.place_eq]

/-- A place that a search through a list gets to. -/
theorem Source.Leads.place_eq (way : (Source.ofList tokens).Leads ⟨c, 0⟩ q) :
    q.consumed = c + q.next ∧ q.next ≤ tokens.length := by
  have hsum := way.consumed_add_next
  simp only [Nat.add_zero] at hsum
  exact ⟨hsum, way.next_le_length (Nat.zero_le _)⟩

/-- A failure whose error names a token is the one at the place. -/
theorem ParseError.Fits.token (h : e.Fits (Source.ofList tokens) q) {t : τ}
    (hfound : e.found = some t) : tokens[q.next]? = some t := by
  obtain ⟨-, hreason⟩ := h
  obtain ⟨n, reason⟩ := e
  cases reason with
  | unexpected u =>
      cases hfound
      rw [← Source.token_ofList]
      exact hreason
  | expectedEnd u =>
      cases hfound
      rw [← Source.token_ofList]
      exact hreason
  | unexpectedEnd => cases hfound
  | leftRecursion info => cases hfound

theorem ParseError.Fits.ended (h : e.Fits (Source.ofList tokens) q)
    (hreason : e.reason = .unexpectedEnd) : tokens.length ≤ q.next := by
  have hnone := h.2
  rw [hreason] at hnone
  simp only [Source.token_ofList] at hnone
  exact List.getElem?_eq_none_iff.1 hnone

theorem ParseError.Fits.names (h : e.Fits (Source.ofList tokens) q)
    (way : (Source.ofList tokens).Leads ⟨c, 0⟩ q) : e.Names tokens c := by
  obtain ⟨hplace, hle⟩ := way.place_eq
  have hindex : e.consumed - c = q.next := by
    rw [h.1, hplace]
    omega
  have htoken : ∀ t, e.found = some t → tokens[e.consumed - c]? = some t := by
    intro t hfound
    rw [hindex]
    exact h.token hfound
  have hend := h.ended
  have hcount := h.1
  obtain ⟨n, reason⟩ := e
  cases reason with
  | unexpected t => exact ⟨t, rfl, htoken t rfl⟩
  | expectedEnd t => exact ⟨t, rfl, htoken t rfl⟩
  | unexpectedEnd =>
      refine ⟨rfl, ?_⟩
      have hge := hend rfl
      simp only at hcount ⊢
      omega
  | leftRecursion info => exact rfl

/-- An outcome that fits where a search through a list starts is faithful to it. -/
theorem Outcome.Fits.faithful (h : o.Fits (Source.ofList tokens) ⟨c, 0⟩) :
    o.Faithful tokens c := by
  obtain ⟨hplace, hle⟩ := h.way.place_eq
  have hdrop : o.remaining tokens = tokens.drop o.place.next := by
    rw [Outcome.remaining, Source.tokensFrom_ofList, List.take_of_length_le]
    rw [List.length_drop]
    omega
  -- how much is consumed and what is left are apart; `place_eq` is what ties them together
  refine ⟨by omega, by omega, ?_, fun e herror => (h.error e herror).1,
    fun e herror => (h.error e herror).names h.way, ?_, ?_⟩
  · rw [hdrop, hplace, Nat.add_sub_cancel_left]
  · intro e t herror hfound hnil
    have htoken := (h.error e herror).token hfound
    rw [hdrop, List.drop_eq_nil_iff] at hnil
    rw [List.getElem?_eq_none hnil] at htoken
    cases htoken
  · intro e herror hreason
    rw [hdrop, List.drop_eq_nil_iff]
    exact (h.error e herror).ended hreason

/-! ### What readers keep to -/

/-- A reader that keeps to something of outcomes that fit. -/
theorem Reader.KeepsTo.keeps {κ ρ : Type} {reader : Reader τ α κ ρ} {src : Source τ} {p₀ : Place}
    {M : κ → Prop} {A : ρ → Prop} (h : reader.KeepsTo (·.Fits src p₀) M A) :
    reader.Keeps src p₀ M A :=
  ⟨h.goOn, h.stop, h.finish⟩

theorem collect_keeps (src : Source τ) (p₀ : Place) :
    (collect : Reader τ α _ _).Keeps src p₀
      (fun basket => ∀ x ∈ basket.sightings, x.outcome.Fits src p₀)
      (fun found => ∀ x ∈ found, x.outcome.Fits src p₀) :=
  collect_keepsTo.keeps

/-- The error says what stands somewhere ahead of the place. -/
def ParseError.Ahead (src : Source τ) (p₀ : Place) (e : ParseError τ) : Prop :=
  ∃ q, src.Leads p₀ q ∧ e.Fits src q

theorem verdict_keeps (src : Source τ) (p₀ : Place) :
    (verdict : Reader τ α _ _).Keeps src p₀
      (fun furthest => ∀ es ∈ furthest, ∀ e ∈ es.toList, e.Ahead src p₀)
      (fun v => ∀ es, v = .error es → ∀ e ∈ es.toList, e.Ahead src p₀) :=
  (verdict_keepsTo fun o e ho herror => ⟨o.place, ho.way, ho.error e herror⟩).keeps

/-! ### Every search -/

/-- **Every outcome is faithful to the input, and so is every error of a parse.** The
outcomes may be collected up to any limit, from a call with any trail. -/
theorem outcomes_faithful (g : Grammar τ α σ) (tokens : List τ) (r : Rule) :
    (∀ (c : Nat) (crumbs : Crumbs) (demand : Nat) (trace : Trace) (limit : Option Nat)
      (found : Array (Sighting τ α)),
      Explores (Source.ofList tokens) collect g ⟨#[], limit⟩
        ⟨.call r ⟨c, 0⟩ crumbs, [], demand, trace⟩ found →
      ∀ x ∈ found, x.outcome.Faithful tokens c) ∧
    (∀ (trace : Trace) (es : ParseErrors τ),
      Explores (Source.ofList tokens) (verdict : Reader τ α _ _) g none
        (.calling r ⟨0, 0⟩ trace) (.error es) →
      ∀ e ∈ es.toList, e.Names tokens 0) := by
  constructor
  · intro c crumbs demand trace limit found h x hx
    have hstart : (⟨.call r ⟨c, 0⟩ crumbs, [], demand, trace⟩ : State τ α).Within
        Scope.everything (Source.ofList tokens) ⟨c, 0⟩ :=
      ⟨⟨c, 0⟩, ⟨.refl, trivial, trivial⟩, .refl⟩
    have hfits := h.keeps (collect_keeps _ _) (by simp) hstart
    exact (hfits x hx).faithful
  · intro trace es h e he
    have hstart : (State.calling r ⟨0, 0⟩ trace : State τ α).Within
        Scope.everything (Source.ofList tokens) ⟨0, 0⟩ :=
      ⟨⟨0, 0⟩, ⟨.refl, trivial, trivial⟩, .refl⟩
    have hahead := h.keeps (verdict_keeps _ _) (by simp) hstart
    obtain ⟨q, way, hfits⟩ := hahead es rfl e he
    exact hfits.names way

/-- A sum that goes wrong after its first number, with the rule for numbers made on the
way, and a parse that fails. -/
theorem sums_outcomes_faithful :
    (∃ found : Array (Sighting Char Nat),
      Explores (Source.ofList ['1', '2', '+', 'x']) collect Grammar.sumsAtFirst ⟨#[], none⟩
        ⟨.call ⟨6⟩ ⟨2, 0⟩ .root, [], 1, .silent⟩ found ∧ found.size = 9 ∧
      ∀ x ∈ found, x.outcome.Faithful ['1', '2', '+', 'x'] 2) ∧
    ∃ es : ParseErrors Char,
      Explores (Source.ofList ['1', 'x']) (verdict : Reader Char Nat _ _) Grammar.sums none
        (.calling ⟨3⟩ ⟨0, 0⟩ .silent) (.error es) ∧ es.toList.length = 2 ∧
      ∀ e ∈ es.toList, e.Names ['1', 'x'] 0 := by
  constructor
  · obtain ⟨basket, s, found, t, hwaiting, hanswer, hsize⟩ :
        ∃ (basket : Basket Char Nat) (s : State Char Nat) (found : Array (Sighting Char Nat))
          (t : State Char Nat),
          explore Grammar.sumsAtFirst (Source.ofList ['1', '2', '+', 'x']) collect 9 1 ⟨#[], none⟩
            ⟨.call ⟨6⟩ ⟨2, 0⟩ .root, [], 1, .silent⟩ = .waiting 1 basket s ∧
          explore Grammar.sums (Source.ofList ['1', '2', '+', 'x']) collect 99 10 basket s
            = .answer found t ∧
          found.size = 9 :=
      ⟨_, _, _, _, rfl, rfl, rfl⟩
    have hexplores := Explores.waiting hwaiting (.answer hanswer)
    exact ⟨found, hexplores, hsize,
      (outcomes_faithful Grammar.sumsAtFirst _ ⟨6⟩).1 2 .root 1 .silent none found hexplores⟩
  · obtain ⟨es, t, hanswer, hlength⟩ : ∃ (es : ParseErrors Char) (t : State Char Nat),
        explore Grammar.sums (Source.ofList ['1', 'x']) verdict 99 10 none
          (.calling ⟨3⟩ ⟨0, 0⟩ .silent) = .answer (.error es) t ∧ es.toList.length = 2 :=
      ⟨_, _, rfl, rfl⟩
    have hexplores := Explores.answer hanswer
    exact ⟨es, hexplores, hlength,
      (outcomes_faithful Grammar.sums _ ⟨3⟩).2 .silent es hexplores⟩

end LazyGrammar

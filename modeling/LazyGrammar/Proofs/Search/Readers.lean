import LazyGrammar.Search.Explore

/-!
# LazyGrammar.Proofs.Search.Readers

**What the readers make of a stream.** A collection has nothing in it but outcomes of the
stream, and a parse that fails reports nothing but errors of the stream. So what holds of all
outcomes of a search holds of what the readers answer.
-/

namespace LazyGrammar

variable {τ α κ ρ : Type} {P : Outcome τ α → Prop} {Q : ParseError τ → Prop}

/-- A reader keeps to what `M` and `A` say of its memory and of its answer, as long as `P`
holds of the outcomes that it looks at. -/
structure Reader.KeepsTo (reader : Reader τ α κ ρ) (P : Outcome τ α → Prop) (M : κ → Prop)
    (A : ρ → Prop) : Prop where
  goOn : ∀ {memory memory' o known}, M memory → P o →
    reader.outcome memory o known = .goOn memory' → M memory'
  stop : ∀ {memory r o known}, M memory → P o → reader.outcome memory o known = .stop r → A r
  finish : ∀ {memory r}, M memory → reader.finish memory = .ok r → A r

theorem collect_keepsTo : (collect : Reader τ α _ _).KeepsTo P
    (fun basket => ∀ x ∈ basket.sightings, P x.outcome)
    (fun found => ∀ x ∈ found, P x.outcome) := by
  have hpush : ∀ {sightings : Array (Sighting τ α)} {o : Outcome τ α} (known : Bool),
      (∀ x ∈ sightings, P x.outcome) → P o → ∀ x ∈ sightings.push ⟨o, known⟩, P x.outcome := by
    intro sightings o known hall ho x hx
    rcases Array.mem_push.1 hx with hx | rfl
    · exact hall x hx
    · exact ho
  constructor
  · intro basket basket' o known hbasket ho hgoOn
    simp only [collect] at hgoOn
    split at hgoOn <;> cases hgoOn <;> exact hpush known hbasket ho
  · intro basket found o known hbasket ho hstop
    simp only [collect] at hstop
    split at hstop <;> cases hstop
    · exact hbasket
    · exact hpush known hbasket ho
  · intro basket found hbasket hfinish
    cases hfinish
    exact hbasket

theorem mergeInto_all {furthest : Option (ParseErrors τ)} {e : ParseError τ}
    (hfurthest : ∀ es ∈ furthest, ∀ e ∈ es.toList, Q e) (he : Q e) :
    ∀ e' ∈ (mergeInto furthest e).toList, Q e' := by
  intro e' he'
  cases furthest with
  | none =>
      cases List.mem_singleton.1 he'
      exact he
  | some es =>
      have hes := hfurthest es rfl
      rw [mergeInto, ParseErrors.toList_merge] at he'
      split at he'
      · cases List.mem_singleton.1 he'
        exact he
      · split at he'
        · rcases List.mem_append.1 he' with hold | hnew
          · exact hes e' hold
          · cases List.mem_singleton.1 hnew
            exact he
        · exact hes e' he'

theorem verdict_keepsTo (hQ : ∀ o e, P o → o.result = .error e → Q e) :
    (verdict : Reader τ α _ _).KeepsTo P (fun furthest => ∀ es ∈ furthest, ∀ e ∈ es.toList, Q e)
      (fun v => ∀ es, v = .error es → ∀ e ∈ es.toList, Q e) := by
  constructor
  · intro furthest furthest' o known hfurthest ho hgoOn
    simp only [verdict] at hgoOn
    split at hgoOn
    · cases hgoOn
    · next e herror =>
      split at hgoOn
      · cases hgoOn
      · cases hgoOn
        intro es hes
        cases hes
        exact mergeInto_all hfurthest (hQ o e ho herror)
  · intro furthest v o known hfurthest ho hstop es herror
    subst herror
    simp only [verdict] at hstop
    split at hstop
    · cases hstop
    · next e herror =>
      split at hstop
      · -- a circle ends the parse, and is the only error that it reports
        cases hstop
        intro e' he'
        cases List.mem_singleton.1 he'
        exact hQ o e ho herror
      · cases hstop
  · intro furthest v hfurthest hfinish es herror
    subst herror
    cases furthest with
    | none => cases hfinish
    | some es' =>
        cases hfinish
        exact hfurthest es rfl

end LazyGrammar

/-!
# LazyGrammar.Search.Source

**Sources of tokens.** A source answers requests for its first token, its second
token and so on; after the first request that it cannot answer there is no token.
Each token is asked for once and then remembered, so a search only counts how many
requests it makes (`State.demand`), and a source is a function.
-/

namespace LazyGrammar

variable {τ : Type}

/-- A finite or endless sequence of tokens. -/
structure Source (τ : Type) where
  token : Nat → Option τ
  /-- There is nothing after the end. -/
  ended : ∀ n, token n = none → token (n + 1) = none

namespace Source

/-- The tokens of a list. -/
def ofList (tokens : List τ) : Source τ :=
  let items := tokens.toArray
  ⟨fun n => items[n]?, fun n h => by
    simp only [Array.getElem?_eq_none_iff] at h ⊢
    omega⟩

/-- The tokens of a list over and over again. -/
def cycle (tokens : List τ) : Source τ :=
  let items := tokens.toArray
  ⟨fun n => if items.size = 0 then none else items[n % items.size]?, fun n h => by
    by_cases hs : items.size = 0
    · simp [hs]
    · rw [if_neg hs, Array.getElem?_eq_none_iff] at h
      exact absurd (Nat.mod_lt n (Nat.pos_of_ne_zero hs)) (Nat.not_lt.2 h)⟩

theorem token_ofList (tokens : List τ) (n : Nat) : (ofList tokens).token n = tokens[n]? := by
  simp [ofList]

/-- The tokens from an index on, for a source that ends after at most `n` more. -/
def tokensFrom (s : Source τ) : Nat → Nat → List τ
  | 0, _ => []
  | n + 1, i =>
    match s.token i with
    | some t => t :: s.tokensFrom n (i + 1)
    | none => []

theorem tokensFrom_ofList (tokens : List τ) (n i : Nat) :
    (ofList tokens).tokensFrom n i = (tokens.drop i).take n := by
  induction n generalizing i with
  | zero => simp [tokensFrom]
  | succ n ih =>
    rw [tokensFrom, token_ofList]
    by_cases h : i < tokens.length
    · rw [List.getElem?_eq_getElem h, List.drop_eq_getElem_cons h, List.take_succ_cons, ← ih]
    · have h := Nat.not_lt.1 h
      rw [List.getElem?_eq_none h, List.drop_eq_nil_of_le h]
      simp

end Source

end LazyGrammar

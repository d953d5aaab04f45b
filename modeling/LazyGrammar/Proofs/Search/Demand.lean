import Mathlib.Order.Bounds.Basic
import Mathlib.Order.Interval.Finset.Nat
import LazyGrammar.Proofs.Search.Verdict

/-!
# LazyGrammar.Proofs.Search.Demand

**How many tokens a parse asks for**, and what follows from it. A parse asks for one token at
the start and for one more each time that a rule gets further than any before it; where it fails
and blames the input, this is where its errors are. Tokens that it has not asked for have no
influence on it, so they may be anything, and there may be endlessly many of them.
-/

namespace LazyGrammar

variable {τ α σ κ ρ : Type} {src src' : Source τ} {g : Grammar τ α σ} {gs : List (Grammar τ α σ)}
  {root : Rule} {trace : Trace} {s t : State τ α} {n : Nat}
  {visited : List (Moment τ α σ)} {seen : List (Sighting τ α)} {ended : Bool}

/-! ### Requests -/

/-- How many tokens a source gives in answer to its first `k` requests. -/
def Source.pulled (src : Source τ) (k : Nat) : Nat := (src.tokensFrom k 0).length

theorem Source.pulled_ofList (tokens : List τ) (k : Nat) :
    (Source.ofList tokens).pulled k = min tokens.length k := by
  rw [pulled, tokensFrom_ofList, List.drop_zero, List.length_take, Nat.min_comm]

theorem Form.taken?_pos {form : Form τ α} {place : Place} (h : form.taken? src place = some n) :
    0 < n := by
  cases form with
  | terminal accept =>
      simp only [Form.taken?] at h
      split at h <;> cases h
      exact Nat.succ_pos _
  | _ => simp [Form.taken?] at h

/-- A rule that takes a token gets somewhere. -/
theorem pos_of_mem_taken (h : n ∈ taken src visited) : 0 < n := by
  obtain ⟨m, -, hm⟩ := List.mem_filterMap.1 h
  unfold Moment.taken? at hm
  split at hm
  · obtain ⟨node, -, hnode⟩ := Option.bind_eq_some_iff.1 hm
    split at hnode
    · simp at hnode
    · exact Form.taken?_pos hnode
  · simp at hm

namespace Unfolds

/-- The tokens that a search from the start takes are those before the last request. -/
theorem mem_taken_iff
    (h : Unfolds src gs (.calling root ⟨0, 0⟩ trace) visited seen ended t) :
    n ∈ taken src visited ↔ 0 < n ∧ n < t.demand := by
  have hdemand := h.lt_demand_iff (n := n) (State.inReach_calling root trace)
  constructor
  · exact fun hn => ⟨pos_of_mem_taken hn, hdemand.2 (Or.inr hn)⟩
  · rintro ⟨hpos, hlt⟩
    exact (hdemand.1 hlt).resolve_left (Nat.not_lt_of_le hpos)

theorem demand_pos (h : Unfolds src gs (.calling root ⟨0, 0⟩ trace) visited seen ended t) :
    0 < t.demand :=
  (h.lt_demand_iff (State.inReach_calling root trace)).2 (Or.inl Nat.one_pos)

/-- The furthest that a rule has got, or the start, is one behind the requests. -/
theorem isGreatest_taken
    (h : Unfolds src gs (.calling root ⟨0, 0⟩ trace) visited seen ended t) :
    IsGreatest (insert 0 {n | n ∈ taken src visited}) (t.demand - 1) := by
  have hpos := h.demand_pos
  constructor
  · rcases Nat.eq_zero_or_pos (t.demand - 1) with hzero | hgot
    · exact Or.inl hzero
    · exact Or.inr (h.mem_taken_iff.2 ⟨hgot, by omega⟩)
  · rintro n (rfl | hn)
    · exact Nat.zero_le _
    · have hlt := (h.mem_taken_iff.1 hn).2
      omega

/-- Rules have got to every place up to the furthest one. -/
theorem card_taken (h : Unfolds src gs (.calling root ⟨0, 0⟩ trace) visited seen ended t) :
    (taken src visited).toFinset.card = t.demand - 1 := by
  have hplaces : (taken src visited).toFinset = Finset.Ico 1 t.demand := by
    ext n
    rw [List.mem_toFinset, h.mem_taken_iff, Finset.mem_Ico]
    exact Iff.rfl
  rw [hplaces, Nat.card_Ico]

end Unfolds

/-- Failures that are remembered at the end of a search are as far as the search has got: no
failure is further, and the last token that was taken has come out with one. -/
theorem Remembers.consumed_eq {es : ParseErrors τ}
    (h : Unfolds src gs (.calling root ⟨0, 0⟩ trace) visited seen ended t)
    (hseen : ∀ y ∈ seen, y.outcome.decides = false) (hes : Remembers (failures seen) (some es)) :
    t.demand = 1 + es.consumed := by
  have hstart : (State.calling root ⟨0, 0⟩ trace : State τ α).InReach :=
    State.inReach_calling root trace
  have hlt : es.consumed < t.demand := by
    obtain ⟨x, hx, hsome⟩ := List.mem_filterMap.1 hes.first_mem
    obtain ⟨e, herror, -, hsome'⟩ := Outcome.error_of_not_decides (hseen x hx)
    cases hsome.symm.trans hsome'
    have hreach := h.seen_inReach hstart x hx
    calc es.consumed = x.outcome.place.consumed := hreach.error _ herror
      _ = x.outcome.place.next := hreach.place.1
      _ < t.demand := hreach.place.2
  have hle : t.demand - 1 ≤ es.consumed := by
    rcases Nat.eq_zero_or_pos (t.demand - 1) with hzero | hpos
    · exact hzero ▸ Nat.zero_le _
    · -- the token before the last request was taken, on a branch that came out as a failure
      have htaken : t.demand - 1 ∈ taken src visited := h.mem_taken_iff.2 ⟨hpos, by omega⟩
      obtain ⟨x, hx, hfar⟩ := h.surfaces hstart htaken
      obtain ⟨e, herror, -, hsome⟩ := Outcome.error_of_not_decides (hseen x hx)
      have hmem : e ∈ failures seen := List.mem_filterMap.2 ⟨x, hx, hsome⟩
      calc t.demand - 1 ≤ x.outcome.place.consumed := hfar
        _ = e.consumed := ((h.seen_inReach hstart x hx).error e herror).symm
        _ ≤ es.consumed := hes.2 e hmem
  omega

/-- **A parse asks for exactly one token more than its furthest progress.** With `m` for the
furthest that a rule got which took a token, or 0, the source has been asked `1 + m` times: once
at the start and once for each of the `m` places that a token was taken from, however often that
was. Errors that blame the input are all at `m`, so from a list of tokens as many have been
pulled as there are up to the one after `m`. -/
theorem demand_is_progress {v : Verdict τ α}
    (h : Ends src verdict gs none (.calling root ⟨0, 0⟩ trace) v t) :
    (∃ visited, Walks src verdict gs none (.calling root ⟨0, 0⟩ trace) visited v t) ∧
    ∀ visited, Walks src verdict gs none (.calling root ⟨0, 0⟩ trace) visited v t →
      ∃ m, IsGreatest (insert 0 {n | n ∈ taken src visited}) m ∧ t.demand = 1 + m ∧
        (taken src visited).toFinset.card = m ∧
        ∀ es, v = .error es → es.isLeftRecursion = false →
          (∀ e ∈ es.toList, e.consumed = m) ∧
          ∀ tokens, src = .ofList tokens → src.pulled t.demand = min tokens.length (m + 1) := by
  refine ⟨ends_iff.1 h, ?_⟩
  rintro visited ⟨seen, ended, hunfolds, hmakes⟩
  have hpos := hunfolds.demand_pos
  have hdemand : t.demand = 1 + (t.demand - 1) := by omega
  refine ⟨t.demand - 1, hunfolds.isGreatest_taken, hdemand, hunfolds.card_taken, ?_⟩
  rintro es rfl hblame
  rcases makes_cases .nothing hmakes with ⟨before, x, -, -, -, hx, herror⟩ |
    ⟨-, hseen, es', hes, hremembers⟩
  · -- an outcome that decides this way blames the grammar
    obtain ⟨e, -, hcircle, rfl⟩ := Outcome.blame_of_judgement hx herror.symm
    cases hcircle.symm.trans hblame
  · cases hes
    have hfar := Remembers.consumed_eq hunfolds hseen hremembers
    refine ⟨fun e he => ?_, ?_⟩
    · have := hremembers.consumed_of_mem he
      omega
    · rintro tokens rfl
      rw [Source.pulled_ofList]
      congr 1
      omega

/-- Letters x up to the end of the input. -/
def Grammar.crosses : Grammar Char Nat Unit :=
  again .just (.terminal fun c => .ok (if c = 'x' then some 1 else none)) .endOfInput
    (.endOfInput 0)

/-- The letters of xyz up to the first one that is none: both failures that are reported have
been found there, and the z has not been pulled. -/
theorem crosses_demand_is_progress :
    ∃ (visited : List (Moment Char Nat Unit)) (t : State Char Nat),
      Ends (Source.ofList ['x', 'y', 'z']) verdict [Grammar.crosses] none
        (.calling ⟨5⟩ ⟨0, 0⟩ .silent)
        (.error ⟨⟨1, .unexpected 'y'⟩, #[⟨1, .expectedEnd 'y'⟩]⟩) t ∧
      IsGreatest (insert 0 {n | n ∈ taken (Source.ofList ['x', 'y', 'z']) visited}) 1 ∧
      t.demand = 1 + 1 ∧ (Source.ofList ['x', 'y', 'z']).pulled t.demand = min 3 (1 + 1) := by
  have hexplore : explore Grammar.crosses (Source.ofList ['x', 'y', 'z']) verdict 40 10 none
      (.calling ⟨5⟩ ⟨0, 0⟩ .silent) = _ := rfl
  have hends : Ends (Source.ofList ['x', 'y', 'z']) verdict [Grammar.crosses] none
      (.calling ⟨5⟩ ⟨0, 0⟩ .silent) _ _ := .answer hexplore
  obtain ⟨⟨visited, hwalks⟩, hall⟩ := demand_is_progress hends
  obtain ⟨m, hgreatest, hdemand, -, herrors⟩ := hall visited hwalks
  obtain ⟨hconsumed, hpulled⟩ := herrors _ rfl rfl
  obtain rfl : 1 = m := hconsumed _ (List.mem_cons_self ..)
  exact ⟨visited, _, hends, hgreatest, hdemand, hpulled _ rfl⟩

/-! ### Tokens that have not been asked for -/

/-- A step looks at no token but those that have been asked for. -/
theorem Machine.step_agrees (hs : s.InReach) (hagree : ∀ i < n, src.token i = src'.token i)
    (hn : s.demand ≤ n) : Machine.step g src' s = Machine.step g src s := by
  obtain ⟨control, frames, demand, trace⟩ := s
  cases control with
  | call rule place crumbs =>
      have htoken : src'.token place.next = src.token place.next :=
        (hagree _ (Nat.lt_of_lt_of_le hs.control.2 hn)).symm
      simp only [Machine.step, Machine.call]
      split
      · rfl
      · next info form _ =>
        split
        · rfl
        · cases form <;> simp only [Machine.useForm, Machine.takeToken, Machine.takeEnd, htoken]
  | _ => rfl

/-- A search that asks for no more than what two sources agree on is the same on both. -/
theorem Unfolds.agrees (h : Unfolds src gs s visited seen ended t) (hs : s.InReach)
    (hagree : ∀ i < n, src.token i = src'.token i) (hn : t.demand ≤ n) :
    Unfolds src' gs s visited seen ended t := by
  induction h with
  | next hstep later ih =>
      have hle := (Unfolds.next hstep later).demand_le hs
      have hsame := (Machine.step_agrees hs hagree (hle.trans hn)).trans hstep
      exact .next hsame (ih (hs.next hstep) hn)
  | more hstep later ih =>
      have hle := (Unfolds.more hstep later).demand_le hs
      have hsame := (Machine.step_agrees hs hagree (hle.trans hn)).trans hstep
      exact .more hsame (ih (hs.stream hstep).2 hn)
  | waited hstep later ih =>
      have hle := (Unfolds.waited hstep later).demand_le hs
      have hsame := (Machine.step_agrees hs hagree (hle.trans hn)).trans hstep
      obtain ⟨rfl, -⟩ := Machine.step_waiting hstep
      exact .waited hsame (ih hs hn)
  | given hstep =>
      obtain ⟨rfl, -⟩ := Machine.step_stream hstep
      exact .given ((Machine.step_agrees hs hagree hn).trans hstep)
  | ended hstep =>
      obtain ⟨rfl, -⟩ := Machine.step_nothing hstep
      exact .ended ((Machine.step_agrees hs hagree hn).trans hstep)

/-- **Tokens that were not asked for have no influence.** If two sources give the same answers to
their first `n` requests, and a walk on the first comes to its answer with at most `n` of them,
then it comes to the same answer on the second, with the same number of requests and the same
events. -/
theorem lookahead_is_local {reader : Reader τ α κ ρ} {memory : κ} {r : ρ}
    (hagree : ∀ i < n, src.token i = src'.token i)
    (h : Ends src reader gs memory (.calling root ⟨0, 0⟩ trace) r t) (hn : t.demand ≤ n) :
    Ends src' reader gs memory (.calling root ⟨0, 0⟩ trace) r t := by
  obtain ⟨visited, seen, ended, hunfolds, hmakes⟩ := ends_iff.1 h
  have hreach : (State.calling root ⟨0, 0⟩ trace : State τ α).InReach :=
    State.inReach_calling root trace
  exact .of_unfolds (hunfolds.agrees hreach hagree hn) hmakes

/-- The letters before the y are followed by the y in an endless input as well. -/
theorem crosses_lookahead_is_local :
    ∃ t : State Char Nat,
      (∀ i < 2, (Source.ofList ['x', 'y', 'z']).token i = (Source.cycle ['x', 'y']).token i) ∧
      Ends (Source.ofList ['x', 'y', 'z']) verdict [Grammar.crosses] none
        (.calling ⟨5⟩ ⟨0, 0⟩ .recorded)
        (.error ⟨⟨1, .unexpected 'y'⟩, #[⟨1, .expectedEnd 'y'⟩]⟩) t ∧
      t.demand ≤ 2 ∧
      Ends (Source.cycle ['x', 'y']) verdict [Grammar.crosses] none
        (.calling ⟨5⟩ ⟨0, 0⟩ .recorded)
        (.error ⟨⟨1, .unexpected 'y'⟩, #[⟨1, .expectedEnd 'y'⟩]⟩) t := by
  have hagree : ∀ i < 2,
      (Source.ofList ['x', 'y', 'z']).token i = (Source.cycle ['x', 'y']).token i := by decide
  have hexplore : explore Grammar.crosses (Source.ofList ['x', 'y', 'z']) verdict 40 10 none
      (.calling ⟨5⟩ ⟨0, 0⟩ .recorded) = _ := rfl
  have hends : Ends (Source.ofList ['x', 'y', 'z']) verdict [Grammar.crosses] none
      (.calling ⟨5⟩ ⟨0, 0⟩ .recorded) _ _ := .answer hexplore
  exact ⟨_, hagree, hends, Nat.le_refl 2, lookahead_is_local hagree hends (Nat.le_refl 2)⟩

end LazyGrammar

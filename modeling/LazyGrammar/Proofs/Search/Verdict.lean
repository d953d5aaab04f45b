import LazyGrammar.Proofs.Rule.Built
import LazyGrammar.Proofs.Search.Bounds

/-!
# LazyGrammar.Proofs.Search.Verdict

**What a parse makes of a stream.** The first outcome that is a success, or that blames the
grammar, decides, and no outcome after it is looked for. A stream without such an outcome is
walked to its end, and its failures that got furthest are the answer: all of them, in the
order of the stream.

The reader of a parse works with a memory of the failures so far; `Remembers` says what is in
it. That a stream is never empty is a fact about searches (`Unfolds.pays`), not about readers.
-/

namespace LazyGrammar

variable {τ α σ : Type}

/-! ### Outcomes and their failures -/

namespace Outcome

/-- The error of an outcome that is a failure. -/
def error? (o : Outcome τ α) : Option (ParseError τ) :=
  match o.result with
  | .ok _ => none
  | .error e => some e

/-- Whether an outcome decides a parse: it is a success, or it blames the grammar. -/
def decides (o : Outcome τ α) : Bool :=
  match o.result with
  | .ok _ => true
  | .error e => e.isLeftRecursion

/-- What a parse answers that an outcome decides. -/
def judgement (o : Outcome τ α) : Verdict τ α := o.result.mapError .single

/-- An outcome that does not decide is a failure that blames the input. -/
theorem error_of_not_decides {o : Outcome τ α} (h : o.decides = false) :
    ∃ e, o.result = .error e ∧ e.isLeftRecursion = false ∧ o.error? = some e := by
  unfold decides at h
  split at h
  · cases h
  · next e herror => exact ⟨e, herror, h, by rw [error?, herror]⟩

theorem decides_of_blame {o : Outcome τ α} {info : RuleInfo} {c : Nat}
    (h : o.result = .error ⟨c, .leftRecursion info⟩) : o.decides = true := by
  rw [decides, h]
  rfl

/-- A failure that decides blames the grammar, and is reported alone. -/
theorem blame_of_judgement {o : Outcome τ α} {es : ParseErrors τ} (h : o.decides = true)
    (hjudgement : o.judgement = .error es) :
    ∃ e, o.result = .error e ∧ e.isLeftRecursion = true ∧ es = .single e := by
  unfold decides at h
  unfold judgement at hjudgement
  split at h
  · next v hok =>
    rw [hok] at hjudgement
    cases hjudgement
  · next e herror =>
    rw [herror] at hjudgement
    cases hjudgement
    exact ⟨e, herror, h, rfl⟩

end Outcome

/-- The failures that got as far as any of them, in order. -/
def furthest (es : List (ParseError τ)) : List (ParseError τ) :=
  es.filter fun e => es.all fun e' => e'.consumed ≤ e.consumed

/-- The failures among the outcomes that were seen. -/
def failures (seen : List (Sighting τ α)) : List (ParseError τ) :=
  seen.filterMap (·.outcome.error?)

variable {e : ParseError τ} {es es' : ParseErrors τ} {errors : List (ParseError τ)}
  {memory : Option (ParseErrors τ)} {x : Sighting τ α} {seen before : List (Sighting τ α)}
  {ended : Bool} {v : Verdict τ α}

/-- Failures get furthest that get as far as a bound that one of them gets to. -/
theorem furthest_eq {c : Nat} (hle : ∀ e ∈ errors, e.consumed ≤ c)
    (hmem : ∃ e ∈ errors, e.consumed = c) :
    furthest errors = errors.filter fun e => e.consumed = c := by
  obtain ⟨best, hbest, rfl⟩ := hmem
  refine List.filter_congr fun e he => ?_
  rw [Bool.eq_iff_iff, List.all_eq_true, decide_eq_true_iff]
  constructor
  · intro hall
    exact Nat.le_antisymm (hle e he) (of_decide_eq_true (hall best hbest))
  · intro heq e' he'
    exact decide_eq_true (heq ▸ hle e' he')

/-! ### The memory of a parse -/

namespace ParseErrors

theorem consumed_merge (es : ParseErrors τ) (e : ParseError τ) :
    (es.merge e).consumed = max es.consumed e.consumed := by
  unfold merge
  rcases Nat.lt_trichotomy e.consumed es.consumed with h | h | h
  · rw [Nat.compare_eq_lt.2 h]
    exact (Nat.max_eq_left (Nat.le_of_lt h)).symm
  · rw [Nat.compare_eq_eq.2 h, h, Nat.max_self]
    rfl
  · rw [Nat.compare_eq_gt.2 h]
    exact (Nat.max_eq_right (Nat.le_of_lt h)).symm

theorem toList_injective (h : es.toList = es'.toList) : es = es' := by
  obtain ⟨first, others⟩ := es
  obtain ⟨first', others'⟩ := es'
  obtain ⟨hfirst, hothers⟩ := List.cons.inj h
  exact congrArg₂ mk hfirst (Array.toList_inj.1 hothers)

end ParseErrors

/-- What a parse remembers of the failures so far: those that got as far as any. -/
def Remembers (errors : List (ParseError τ)) : Option (ParseErrors τ) → Prop
  | none => errors = []
  | some es => es.toList = errors.filter (fun e => e.consumed = es.consumed) ∧
      ∀ e ∈ errors, e.consumed ≤ es.consumed

namespace Remembers

theorem nothing : Remembers ([] : List (ParseError τ)) none := rfl

/-- Taking a failure into account is remembering one failure more. -/
theorem mergeInto (h : Remembers errors memory) (e : ParseError τ) :
    Remembers (errors ++ [e]) (some (mergeInto memory e)) := by
  cases memory with
  | none =>
      cases h
      refine ⟨?_, ?_⟩ <;>
        simp [LazyGrammar.mergeInto, ParseErrors.consumed, ParseErrors.single, ParseErrors.toList]
  | some es =>
      obtain ⟨hlist, hle⟩ := h
      refine ⟨?_, ?_⟩
      · rw [LazyGrammar.mergeInto, ParseErrors.toList_merge, ParseErrors.consumed_merge,
          List.filter_append]
        rcases Nat.lt_trichotomy e.consumed es.consumed with hlt | heq | hgt
        · rw [Nat.max_eq_left (Nat.le_of_lt hlt), if_neg (Nat.not_lt_of_lt hlt),
            if_neg (Nat.ne_of_lt hlt), ← hlist]
          simp [Nat.ne_of_lt hlt]
        · rw [heq, Nat.max_self, if_neg (Nat.lt_irrefl _), if_pos rfl, ← hlist]
          simp [heq]
        · -- every failure so far is behind the new one
          have hnone : errors.filter (fun e' => e'.consumed = e.consumed) = [] := by
            refine List.filter_eq_nil_iff.2 fun e' he' => ?_
            have hle' := hle e' he'
            simp only [decide_eq_true_iff]
            omega
          rw [Nat.max_eq_right (Nat.le_of_lt hgt), if_pos hgt, hnone]
          simp
      · intro e' he'
        rw [LazyGrammar.mergeInto, ParseErrors.consumed_merge]
        rcases List.mem_append.1 he' with hold | hnew
        · exact (hle e' hold).trans (Nat.le_max_left ..)
        · cases List.mem_singleton.1 hnew
          exact Nat.le_max_right ..

theorem first_mem (h : Remembers errors (some es)) : es.first ∈ errors := by
  have hfirst : es.first ∈ errors.filter fun e => e.consumed = es.consumed :=
    h.1 ▸ List.mem_cons_self ..
  exact (List.mem_filter.1 hfirst).1

theorem consumed_of_mem (h : Remembers errors (some es)) (he : e ∈ es.toList) :
    e.consumed = es.consumed := by
  rw [h.1] at he
  exact of_decide_eq_true (List.mem_filter.1 he).2

/-- What is remembered in the end is what got furthest. -/
theorem toList_eq (h : Remembers errors (some es)) : es.toList = furthest errors := by
  rw [h.1, furthest_eq h.2 ⟨es.first, h.first_mem, rfl⟩]

end Remembers

/-! ### The reader of a parse -/

theorem failures_cons_of_not_decides (h : x.outcome.decides = false) (seen : List (Sighting τ α)) :
    ∃ e, x.outcome.result = .error e ∧ e.isLeftRecursion = false ∧
      failures (x :: seen) = e :: failures seen := by
  obtain ⟨e, herror, hblame, hsome⟩ := Outcome.error_of_not_decides h
  exact ⟨e, herror, hblame, List.filterMap_cons_some hsome⟩

/-- An outcome that decides ends a parse. -/
theorem verdict_stop (memory : Option (ParseErrors τ)) (h : x.outcome.decides = true) :
    verdict.outcome memory x.outcome x.known = .stop x.outcome.judgement := by
  unfold Outcome.decides at h
  simp only [verdict, Outcome.judgement]
  split at h
  · next v hok => simp [hok, Except.mapError]
  · next e herror => simp [herror, h, Except.mapError]

/-- A parse goes on only after an outcome that does not decide. -/
theorem not_decides_of_goOn {memory' : Option (ParseErrors τ)}
    (h : verdict.outcome memory x.outcome x.known = .goOn memory') :
    x.outcome.decides = false := by
  cases hx : x.outcome.decides with
  | true => cases h.symm.trans (verdict_stop memory hx)
  | false => rfl

/-- A failure that does not decide is taken into account. -/
theorem verdict_goOn (memory : Option (ParseErrors τ)) (herror : x.outcome.result = .error e)
    (hblame : e.isLeftRecursion = false) :
    verdict.outcome memory x.outcome x.known = .goOn (some (mergeInto memory e)) := by
  simp [verdict, herror, hblame]

theorem makes_judgement (memory : Option (ParseErrors τ))
    (hbefore : ∀ y ∈ before, y.outcome.decides = false) (hx : x.outcome.decides = true) :
    verdict.Makes memory (before ++ [x]) false x.outcome.judgement := by
  induction before generalizing memory with
  | nil => exact .stop (verdict_stop memory hx)
  | cons y before ih =>
      obtain ⟨hy, hbefore⟩ := List.forall_mem_cons.1 hbefore
      obtain ⟨e, herror, hblame, -⟩ := Outcome.error_of_not_decides hy
      exact .goOn (verdict_goOn memory herror hblame) (ih _ hbefore)

/-- Failures that do not decide are all remembered at the end of the stream. -/
theorem makes_furthest (hmemory : Remembers errors memory)
    (hseen : ∀ y ∈ seen, y.outcome.decides = false) (hne : errors ++ failures seen ≠ []) :
    ∃ es, (verdict : Reader τ α _ _).Makes memory seen true (.error es) ∧
      Remembers (errors ++ failures seen) (some es) := by
  induction seen generalizing errors memory with
  | nil =>
      rw [failures, List.filterMap_nil, List.append_nil] at hne ⊢
      cases memory with
      | none => exact absurd hmemory hne
      | some es => exact ⟨es, .finish rfl, hmemory⟩
  | cons y seen ih =>
      obtain ⟨hy, hseen⟩ := List.forall_mem_cons.1 hseen
      obtain ⟨e, herror, hblame, hcons⟩ := failures_cons_of_not_decides hy seen
      obtain ⟨es, hmakes, hes⟩ := ih (hmemory.mergeInto e) hseen (by simp)
      rw [List.append_assoc, List.singleton_append, ← hcons] at hes
      exact ⟨es, .goOn (verdict_goOn memory herror hblame) hmakes, hes⟩

/-- **What a parse makes of the outcomes that it has looked at.** Either the last one has decided
and none before it, or none has decided and the stream has ended. -/
theorem makes_cases (hmemory : Remembers errors memory)
    (h : (verdict : Reader τ α _ _).Makes memory seen ended v) :
    (∃ before x, seen = before ++ [x] ∧ ended = false ∧
      (∀ y ∈ before, y.outcome.decides = false) ∧ x.outcome.decides = true ∧
      v = x.outcome.judgement) ∨
    (ended = true ∧ (∀ y ∈ seen, y.outcome.decides = false) ∧
      ∃ es, v = .error es ∧ Remembers (errors ++ failures seen) (some es)) := by
  induction h generalizing errors with
  | @goOn memory memory' x seen ended v hreader _ ih =>
      have hx := not_decides_of_goOn hreader
      obtain ⟨e, herror, hblame, hcons⟩ := failures_cons_of_not_decides hx seen
      cases hreader.symm.trans (verdict_goOn memory herror hblame)
      rcases ih (hmemory.mergeInto e) with ⟨before, y, rfl, hended, hbefore, hy, rfl⟩ |
        ⟨hended, hseen, es, rfl, hes⟩
      · exact Or.inl ⟨x :: before, y, rfl, hended, List.forall_mem_cons.2 ⟨hx, hbefore⟩, hy, rfl⟩
      · rw [List.append_assoc, List.singleton_append, ← hcons] at hes
        exact Or.inr ⟨hended, List.forall_mem_cons.2 ⟨hx, hseen⟩, es, rfl, hes⟩
  | @stop memory x v hreader =>
      cases hx : x.outcome.decides with
      | true =>
          cases hreader.symm.trans (verdict_stop memory hx)
          exact Or.inl ⟨[], x, rfl, rfl, nofun, hx, rfl⟩
      | false =>
          obtain ⟨e, herror, hblame, -⟩ := failures_cons_of_not_decides hx seen
          cases hreader.symm.trans (verdict_goOn memory herror hblame)
  | @finish memory v hreader =>
      cases memory with
      | none => cases hreader
      | some es =>
          cases hreader
          refine Or.inr ⟨rfl, nofun, es, rfl, ?_⟩
          rwa [failures, List.filterMap_nil, List.append_nil]

/-- If an outcome that a parse has looked at blames a rule, this is the answer. -/
theorem makes_blame {info : RuleInfo} {c : Nat}
    (h : (verdict : Reader τ α _ _).Makes none seen ended v) (hx : x ∈ seen)
    (herror : x.outcome.result = .error ⟨c, .leftRecursion info⟩) :
    v = .error (.single ⟨c, .leftRecursion info⟩) := by
  have hdecides : x.outcome.decides = true := Outcome.decides_of_blame herror
  rcases makes_cases .nothing h with ⟨before, y, rfl, -, hbefore, -, rfl⟩ | ⟨-, hseen, -⟩
  · rcases List.mem_append.1 hx with hmem | hmem
    · cases (hbefore x hmem).symm.trans hdecides
    · cases List.mem_singleton.1 hmem
      rw [Outcome.judgement, herror]
      rfl
  · cases (hseen x hx).symm.trans hdecides

/-- If the answer of a parse blames a rule, it is what one outcome says. -/
theorem exists_blame (h : (verdict : Reader τ α _ _).Makes none seen ended (.error es))
    (hes : es.isLeftRecursion = true) :
    ∃ x ∈ seen, ∃ info c, x.outcome.result = .error ⟨c, .leftRecursion info⟩ ∧
      es = .single ⟨c, .leftRecursion info⟩ := by
  rcases makes_cases .nothing h with ⟨before, x, rfl, -, -, hx, herror⟩ |
    ⟨-, hseen, es', hsame, hremembers⟩
  · obtain ⟨⟨c, reason⟩, hresult, hblame, rfl⟩ := Outcome.blame_of_judgement hx herror.symm
    cases reason with
    | leftRecursion info =>
        exact ⟨x, List.mem_append_right _ (List.mem_singleton_self x), info, c, hresult, rfl⟩
    | _ => cases hblame
  · -- what is remembered blames the input
    cases hsame
    obtain ⟨x, hx, hsome⟩ := List.mem_filterMap.1 hremembers.first_mem
    obtain ⟨e, -, hblame, hsome'⟩ := Outcome.error_of_not_decides (hseen x hx)
    cases hsome.symm.trans hsome'
    cases hes.symm.trans hblame

/-! ### Parses -/

variable {src : Source τ} {gs : List (Grammar τ α σ)} {root : Rule} {trace : Trace}
  {visited : List (Moment τ α σ)} {t : State τ α}

/-- Every search from the start of the input comes to an outcome. -/
theorem Unfolds.exists_seen
    (h : Unfolds src gs (.calling root ⟨0, 0⟩ trace) visited seen ended t) : ∃ x, x ∈ seen := by
  obtain ⟨x, hx, -⟩ := h.pays (State.inReach_calling root trace) (Nat.zero_le _)
  exact ⟨x, hx⟩

/-- A search from the start of the input has a failure if no outcome decides. -/
theorem Unfolds.failures_ne_nil
    (h : Unfolds src gs (.calling root ⟨0, 0⟩ trace) visited seen ended t)
    (hseen : ∀ y ∈ seen, y.outcome.decides = false) : failures seen ≠ [] := by
  obtain ⟨x, hx⟩ := h.exists_seen
  obtain ⟨e, -, -, hsome⟩ := Outcome.error_of_not_decides (hseen x hx)
  have hmem : e ∈ failures seen := List.mem_filterMap.2 ⟨x, hx, hsome⟩
  exact List.ne_nil_of_mem hmem

/-- **The answer of a parse is determined by the stream of its rule.** If an outcome of the
stream decides and none before it does, the answer is what it says, and the final state is the
one in which it was found. If the stream ends without such an outcome, there is a failure in it,
and the answer consists of all those that got furthest. A parse that answers has come to one
of these. -/
theorem answer_of_stream (src : Source τ) (gs : List (Grammar τ α σ)) (root : Rule)
    (trace : Trace) :
    (∀ visited before x t,
      Unfolds src gs (.calling root ⟨0, 0⟩ trace) visited (before ++ [x]) false t →
      (∀ y ∈ before, y.outcome.decides = false) → x.outcome.decides = true →
      ∀ v t', Ends src verdict gs none (.calling root ⟨0, 0⟩ trace) v t' ↔
        v = x.outcome.judgement ∧ t' = t) ∧
    (∀ visited seen t, Unfolds src gs (.calling root ⟨0, 0⟩ trace) visited seen true t →
      (∀ y ∈ seen, y.outcome.decides = false) →
      furthest (failures seen) ≠ [] ∧
      ∀ v t', Ends src verdict gs none (.calling root ⟨0, 0⟩ trace) v t' ↔
        (∃ es, v = .error es ∧ es.toList = furthest (failures seen)) ∧ t' = t) ∧
    (∀ v t, Ends src verdict gs none (.calling root ⟨0, 0⟩ trace) v t →
      ∃ visited seen ended, Unfolds src gs (.calling root ⟨0, 0⟩ trace) visited seen ended t ∧
        ((∃ before x, seen = before ++ [x] ∧ ended = false ∧
            (∀ y ∈ before, y.outcome.decides = false) ∧ x.outcome.decides = true) ∨
          (ended = true ∧ ∀ y ∈ seen, y.outcome.decides = false))) := by
  refine ⟨?_, ?_, ?_⟩
  · intro visited before x t hunfolds hbefore hx v t'
    have hends := Ends.of_unfolds hunfolds (makes_judgement none hbefore hx)
    constructor
    · exact fun hends' => hends'.unique hends
    · rintro ⟨rfl, rfl⟩
      exact hends
  · intro visited seen t hunfolds hseen
    obtain ⟨es, hmakes, hes⟩ := makes_furthest .nothing hseen (hunfolds.failures_ne_nil hseen)
    have hlist := hes.toList_eq
    have hends := Ends.of_unfolds hunfolds hmakes
    refine ⟨hlist ▸ es.toList_ne_nil, fun v t' => ?_⟩
    constructor
    · intro hends'
      obtain ⟨rfl, rfl⟩ := hends'.unique hends
      exact ⟨⟨es, rfl, hlist⟩, rfl⟩
    · rintro ⟨⟨es', rfl, hlist'⟩, rfl⟩
      rw [ParseErrors.toList_injective (hlist'.trans hlist.symm)]
      exact hends
  · intro v t hends
    obtain ⟨visited, seen, ended, hunfolds, hmakes⟩ := ends_iff.1 hends
    refine ⟨visited, seen, ended, hunfolds, ?_⟩
    rcases makes_cases .nothing hmakes with ⟨before, x, hseen, hended, hbefore, hx, -⟩ |
      ⟨hended, hseen, -⟩
    · exact Or.inl ⟨before, x, hseen, hended, hbefore, hx⟩
    · exact Or.inr ⟨hended, hseen⟩

/-- In an endless input, the rule that starts again at the end of the input fails to see the end
and then is nothing, which decides. A plus that is not there leaves one failure. -/
theorem lingering_answer_of_stream :
    (∃ visited before x t,
      Unfolds (Source.cycle ['x']) [Grammar.lingering] (.calling ⟨5⟩ ⟨0, 0⟩ .recorded) visited
        (before ++ [x]) false t ∧
      before.length = 1 ∧ (∀ y ∈ before, y.outcome.decides = false) ∧
      x.outcome.decides = true ∧
      Ends (Source.cycle ['x']) verdict [Grammar.lingering] none (.calling ⟨5⟩ ⟨0, 0⟩ .recorded)
        (.ok 1) t) ∧
    ∃ visited seen t,
      Unfolds (Source.ofList ['x']) [Grammar.sums] (.calling ⟨1⟩ ⟨0, 0⟩ .recorded) visited seen
        true t ∧
      (∀ y ∈ seen, y.outcome.decides = false) ∧
      Ends (Source.ofList ['x']) verdict [Grammar.sums] none (.calling ⟨1⟩ ⟨0, 0⟩ .recorded)
        (.error (.single ⟨0, .unexpected 'x'⟩)) t := by
  constructor
  · obtain ⟨visited, hunfolds⟩ := Unfolds.run_more []
      (show Machine.run Grammar.lingering (Source.cycle ['x']) 8
        (.calling ⟨5⟩ ⟨0, 0⟩ .recorded) = _ from rfl) (Unfolds.run_given [] (n := 9) rfl)
    have hends := (answer_of_stream (Source.cycle ['x']) [Grammar.lingering] ⟨5⟩ .recorded).1
      visited [_] _ _ hunfolds (List.forall_mem_singleton.2 rfl) rfl
    exact ⟨visited, [_], _, _, hunfolds, rfl, List.forall_mem_singleton.2 rfl, rfl,
      (hends _ _).2 ⟨rfl, rfl⟩⟩
  · obtain ⟨visited, hunfolds⟩ := Unfolds.run_more []
      (show Machine.run Grammar.sums (Source.ofList ['x']) 2
        (.calling ⟨1⟩ ⟨0, 0⟩ .recorded) = _ from rfl) (Unfolds.run_ended [] (n := 2) rfl)
    have hends := (answer_of_stream (Source.ofList ['x']) [Grammar.sums] ⟨1⟩ .recorded).2.1
      visited _ _ hunfolds (List.forall_mem_singleton.2 rfl)
    exact ⟨visited, _, _, hunfolds, List.forall_mem_singleton.2 rfl,
      (hends.2 _ _).2 ⟨⟨_, rfl, rfl⟩, rfl⟩⟩

/-- Where the stream of a rule ends, a parse comes to an answer, perhaps sooner. -/
theorem Unfolds.walks
    (h : Unfolds src gs (.calling root ⟨0, 0⟩ trace) visited seen true t) :
    ∃ visited v t, Walks src verdict gs none (.calling root ⟨0, 0⟩ trace) visited v t := by
  cases hfind : seen.find? (·.outcome.decides) with
  | some x =>
      obtain ⟨hx, before, later, rfl, hbefore⟩ := List.find?_eq_some_iff_append.1 hfind
      obtain ⟨visited, t, hunfolds⟩ := h.upTo
      have hmakes := makes_judgement none (fun y hy => by simpa using hbefore y hy) hx
      exact ⟨visited, _, t, _, _, hunfolds, hmakes⟩
  | none =>
      have hseen : ∀ y ∈ seen, y.outcome.decides = false :=
        fun y hy => Bool.not_eq_true _ ▸ List.find?_eq_none.1 hfind y hy
      obtain ⟨es, hmakes, -⟩ := makes_furthest .nothing hseen (h.failures_ne_nil hseen)
      exact ⟨visited, _, t, _, _, h, hmakes⟩

end LazyGrammar

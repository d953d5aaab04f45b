import LazyGrammar.Proofs.Recursion.FailFast
import LazyGrammar.Proofs.Search.Alternatives
import LazyGrammar.Proofs.Search.Reentry

/-!
# LazyGrammar.Proofs.Search.Safety

**A grammar that was accepted never makes a search go wrong** (`accepted_is_safe`). Whoever uses a
rule of it on a list of tokens comes to an answer, and in each state on the way there is what the
next step needs.

Each thing that is needed has an invariant of its own, which has been shown to last. Rules and
places are those of a search below the root (`Scope.below`), alternatives are put off where a choice
has some left (`State.Listed`), an outcome is owed where a rule is used (`Unfolds.first_outcome`),
and a tail is forced only while larger ones are (`Unfolds.partOf_of_forced`). What is left to do
here is to put them together.
-/

namespace LazyGrammar

variable {τ α σ κ ρ : Type} {g : Grammar τ α σ} {src : Source τ} {root : Rule} {s s' t : State τ α}
  {tail : Tail τ α}

/-! ### States of a search below the root -/

/-- A state of a search below the root, on a list of tokens. -/
structure State.Below (g : Grammar τ α σ) (root : Rule) (tokens : List τ) (s : State τ α) :
    Prop where
  within : s.Within (Scope.below g root) (Source.ofList tokens) ⟨0, 0⟩
  listed : s.Listed g root
  reach : s.InReach

namespace State.Below

variable {tokens : List τ} {o : Outcome τ α}

theorem calling {r : Rule} (hr : g.Reaches root r) (tokens : List τ) (trace : Trace) :
    (State.calling r ⟨0, 0⟩ trace : State τ α).Below g root tokens where
  within := ⟨⟨0, 0⟩, ⟨.refl, hr, trivial⟩, .refl⟩
  listed := ⟨trivial, nofun⟩
  reach := State.inReach_calling r trace

theorem next (h : s.Below g root tokens)
    (hstep : Machine.step g (Source.ofList tokens) s = .next s') : s'.Below g root tokens := by
  have hwithin := Machine.step_within (Scope.below_kept g root _) h.within
  have hlisted := Machine.step_listed h.within h.listed
  rw [hstep] at hwithin hlisted
  exact ⟨hwithin, hlisted, h.reach.next hstep⟩

theorem stream (h : s.Below g root tokens)
    (hstep : Machine.step g (Source.ofList tokens) s = .stream o tail s') :
    (s'.goTo (.force tail)).Below g root tokens := by
  have hwithin := Machine.step_within (Scope.below_kept g root _) h.within
  have hlisted := Machine.step_listed h.within h.listed
  rw [hstep] at hwithin hlisted
  exact ⟨hwithin.2, hlisted, (h.reach.stream hstep).2⟩

end State.Below

/-! ### What a step needs -/

/-- The place that a state has got to. -/
def Control.place? : Control τ α → Option Place
  | .call _ place _ | .follow _ place _ | .continue _ place => some place
  | .give o _ => some o.place
  | .force _ | .walk _ | .finish | .fail _ => none

/-- A search comes to a first outcome, with the frames from before. -/
def State.Yields (g : Grammar τ α σ) (src : Source τ) (s : State τ α) : Prop :=
  ∃ o tail s', Machine.Steps g src s s' ∧ s'.control = .give o tail ∧ s'.frames = s.frames

/-- A state of a search for which there is what the next step needs. -/
structure State.Sound (g : Grammar τ α σ) (root : Rule) (tokens : List τ) (s : State τ α) :
    Prop where
  /-- A rule that is used is there, and comes to an outcome. -/
  call : ∀ r place crumbs, s.control = .call r place crumbs →
    g.Has r ∧ s.Yields g (Source.ofList tokens)
  /-- A reference that is followed leads to a rule. -/
  follow : ∀ cell place crumbs, s.control = .follow cell place crumbs →
    ∃ r, g.target cell = .rule r
  /-- A repetition that starts comes to an outcome. -/
  repetition : ∀ item info crumbs collect place,
    s.control = .walk ⟨item, info, crumbs, collect, [], [.start 0 place]⟩ →
    s.Yields g (Source.ofList tokens)
  /-- A choice that goes on has an alternative to go on with. -/
  alternative : ∀ later frames, s.frames = .orElse later :: frames → later.Listed g root
  /-- No more tokens are counted than there are. -/
  count : ∀ place, s.control.place? = some place →
    place.consumed = place.next ∧ place.next ≤ tokens.length

namespace State.Below

variable {tokens : List τ}

/-- Whatever place a search below the root gets to, the tokens up to there are those of the
list. -/
theorem count {place : Place} (h : s.Below g root tokens)
    (hplace : s.control.place? = some place) :
    place.consumed = place.next ∧ place.next ≤ tokens.length := by
  have hway : (Source.ofList tokens).Leads ⟨0, 0⟩ place := by
    obtain ⟨p, hcontrol, hframes⟩ := h.within
    refine hframes.leads.trans ?_
    cases hkind : s.control <;> rw [hkind] at hcontrol hplace <;> cases hplace
    · exact hcontrol.1
    · exact hcontrol.1
    · exact hcontrol.1
    · exact hcontrol.1.way
  have hplace := hway.place_eq
  rwa [Nat.zero_add] at hplace

/-- Whatever search visits a state below the root, the state is sound. -/
theorem sound {visited : List (Moment τ α σ)} {seen : List (Sighting τ α)} {ended : Bool}
    (hcomplete : g.Complete root) (h : s.Below g root tokens)
    (hunfolds : Unfolds (Source.ofList tokens) [g] s visited seen ended t) :
    s.Sound g root tokens := by
  obtain ⟨control, frames, demand, trace⟩ := s
  have hyields : control.Owes 0 →
      (⟨control, frames, demand, trace⟩ : State τ α).Yields g (Source.ofList tokens) :=
    fun howes => Unfolds.first_outcome (s := ⟨control, [], demand, trace⟩) hunfolds h.reach howes
  obtain ⟨p, hcontrol, -⟩ := h.within
  constructor
  · rintro r place crumbs ⟨⟩
    obtain ⟨info, form, hnode, -⟩ := hcomplete r hcontrol.2.1
    exact ⟨⟨_, hnode⟩, hyields (Nat.zero_le _)⟩
  · rintro cell place crumbs ⟨⟩
    obtain ⟨r, info, weak, hreach, hnode⟩ := hcontrol.2.1
    obtain ⟨r', htarget, -⟩ := hcomplete.reference hreach hnode
    exact ⟨r', htarget⟩
  · rintro item info crumbs collect place ⟨⟩
    exact hyields ⟨0, place, [], rfl, Nat.zero_le _⟩
  · rintro later frames ⟨⟩
    exact h.listed.frames _ (List.mem_cons_self ..)
  · exact fun place => h.count

end State.Below

/-! ### Searches below the root -/

/-- A walk comes to one answer, with every budget that is not too small. -/
def Concludes (g : Grammar τ α σ) (src : Source τ) (reader : Reader τ α κ ρ) (memory : κ)
    (s : State τ α) : Prop :=
  ∃ r t, (∃ steps outcomes, explore g src reader steps outcomes memory s = .answer r t) ∧
    ∀ steps outcomes, explore g src reader steps outcomes memory s = .answer r t ∨
      explore g src reader steps outcomes memory s = .unfinished

/-- A walk in one grammar that ends has nothing to wait for. -/
theorem Ends.concludes {reader : Reader τ α κ ρ} {memory : κ} {r : ρ}
    (h : Ends src reader [g] memory s r t) : Concludes g src reader memory s := by
  cases h with
  | answer hanswer =>
      refine ⟨r, t, ⟨_, _, hanswer⟩, fun steps outcomes => ?_⟩
      by_cases hend : explore g src reader steps outcomes memory s = .unfinished
      · exact Or.inr hend
      · exact Or.inl (explore_unique rfl hanswer hend nofun)
  | waiting _ later => cases later

/-- Whoever collects the outcomes of a stream that ends collects all of them. -/
theorem makes_collect (seen : List (Sighting τ α)) (sightings : Array (Sighting τ α)) :
    collect.Makes ⟨sightings, none⟩ seen true (sightings ++ seen.toArray) := by
  induction seen generalizing sightings with
  | nil =>
      refine .finish ?_
      simp [collect]
  | cons x seen ih =>
      have hlater := ih (sightings.push x)
      rw [show sightings.push x ++ seen.toArray = sightings ++ (x :: seen).toArray by simp]
        at hlater
      exact .goOn rfl hlater

/-- **A grammar that was accepted never makes a search go wrong.** Whichever rule below the root is
used on a list of tokens, its stream ends, and a parse and a walk over the whole stream come to an
answer: never to a fault, and never to a rule to wait for. In each state on the way the next step
has what it needs. While a tail is computed, only proper parts of it are forced, so never the tail
itself; and a stream without an outcome that decides has a failure to report. -/
theorem accepted_is_safe {a : Analysis} (haccepts : g.Accepts root a)
    (hretains : g.Retains root) (htotal : g.Total root) (tokens : List τ) {r : Rule}
    (hr : g.Reaches root r) (trace : Trace) :
    (∃ visited seen t,
      Unfolds (Source.ofList tokens) [g] (.calling r ⟨0, 0⟩ trace) visited seen true t) ∧
    Concludes g (Source.ofList tokens) verdict none (.calling r ⟨0, 0⟩ trace) ∧
    Concludes g (Source.ofList tokens) collect ⟨#[], none⟩ (.calling r ⟨0, 0⟩ trace) ∧
    ∀ visited seen ended t,
      Unfolds (Source.ofList tokens) [g] (.calling r ⟨0, 0⟩ trace) visited seen ended t →
      (∀ m ∈ visited, m.state.Sound g root tokens) ∧
      (∀ T T', ForcedDuring visited T T' → T'.PartOf T ∧ T' ≠ T) ∧
      ((∀ x ∈ seen, x.outcome.decides = false) → failures seen ≠ []) := by
  have hcomplete := haccepts.complete hretains
  have hdelivers := delivers_call tokens (hcomplete.of_reaches hr) (htotal.of_reaches hr) ⟨0, 0⟩
    .root
  have hframes : (⟨.finish, [], 1, trace⟩ : State τ α).frames = [] := rfl
  obtain ⟨visited, seen, t, hunfolds, -⟩ := hdelivers.unfolds hframes
  refine ⟨⟨visited, seen, t, hunfolds⟩, ?_, ?_, ?_⟩
  · obtain ⟨visited, v, t, hwalks⟩ := Unfolds.walks hunfolds
    exact (ends_iff.2 ⟨visited, hwalks⟩).concludes
  · exact (Ends.of_unfolds hunfolds (makes_collect seen #[])).concludes
  · intro visited seen ended t hunfolds
    have hbelow := State.Below.calling hr tokens trace
    refine ⟨fun m hm => ?_, fun T T' hforced => ?_, hunfolds.failures_ne_nil⟩
    · have hm' := hunfolds.invariant hbelow State.Below.next State.Below.stream m hm
      obtain ⟨before, after, rfl⟩ := List.append_of_mem hm
      obtain ⟨seen, hfrom⟩ := hunfolds.from_moment
      exact hm'.sound hcomplete hfrom
    · have hpart := hunfolds.partOf_of_forced hbelow.reach hforced
      exact ⟨hpart, hpart.ne⟩

/-! ### Runs -/

namespace Grammar

/-- Any number of the letter x, up to the end of the input. Its root is the rule with place 6. -/
def runs : Grammar Char Nat Unit where
  nodes := #[
    ⟨⟨0, .just, none⟩, .terminal fun c => .ok (if c = 'x' then some 1 else none)⟩,
    ⟨⟨1, .repetition, none⟩, .repetition ⟨0⟩ List.sum⟩,
    ⟨⟨2, .epsilon, none⟩, .epsilon 0⟩,
    ⟨⟨3, .map, none⟩, .map ⟨2⟩ fun _ => .ok 0⟩,
    ⟨⟨4, .oneOf, none⟩, .oneOf ⟨3⟩ [⟨1⟩]⟩,
    ⟨⟨5, .endOfInput, none⟩, .endOfInput 0⟩,
    ⟨⟨6, .sequence, none⟩, .sequence ⟨4⟩ [⟨5⟩] fun vs => .ok vs.sum⟩]
  cells := #[]
  nextId := 7

theorem runs_built : runs.Built := by
  let g₁ : Grammar Char Nat Unit :=
    after (Grammar.make .just (.terminal fun c => .ok (if c = 'x' then some 1 else none))) empty
  let g₂ := after (Grammar.repetition ⟨0⟩ 0 List.sum) g₁
  let g₃ := after (Grammar.endOfInput 0) g₂
  have h₁ : g₁.Built := .single (.make rfl nofun)
  have h₂ : g₂.Built := h₁.tail (.repetition ⟨_, rfl, rfl⟩)
  have h₃ : g₃.Built := h₂.tail (.make rfl nofun)
  refine h₃.tail (.make rfl ?_)
  intro r hr
  rcases List.mem_cons.1 hr with rfl | hr
  · exact ⟨_, rfl, rfl⟩
  · cases List.mem_singleton.1 hr
    exact ⟨_, rfl, rfl⟩

theorem runs_accepts : ∃ a, runs.Accepts ⟨6⟩ a := by
  have hrun : ∃ s, (Survey.start ⟨6⟩).run runs 8 = .finished s := by
    simp [Survey.run, Survey.step, Survey.enter, Survey.start, runs, node?, info, Form.parts]
  obtain ⟨s, hrun⟩ := hrun
  exact ⟨_, runs, s, runs_built, ⟨_, rfl⟩, .finished hrun .refl, rfl⟩

theorem runs_retains : runs.Retains ⟨6⟩ := nofun

theorem runs_total : runs.Total ⟨6⟩ := total_of_all (by simp [runs, Form.Total]) _

end Grammar

/-- The rule for any number of letters, on one letter: no letter comes out first. When the next
outcome is looked for, the tail after it is forced, and within this a part of that tail, before
the repetition starts and gives the letter. -/
theorem runs_accepted_is_safe :
    ∃ a visited seen t T T', Grammar.runs.Accepts ⟨6⟩ a ∧ Grammar.runs.Retains ⟨6⟩ ∧
      Grammar.runs.Total ⟨6⟩ ∧ Grammar.runs.Reaches ⟨6⟩ ⟨4⟩ ∧
      Unfolds (Source.ofList ['x']) [Grammar.runs] (.calling ⟨4⟩ ⟨0, 0⟩ .silent) visited seen
        false t ∧
      seen.length = 2 ∧ ForcedDuring visited T T' ∧ T'.PartOf T ∧ T' ≠ T ∧
      (∃ m ∈ visited, ∃ later frames, m.state.frames = .orElse later :: frames ∧
        m.state.Sound Grammar.runs ⟨6⟩ ['x']) ∧
      Concludes Grammar.runs (Source.ofList ['x']) verdict none
        (.calling ⟨4⟩ ⟨0, 0⟩ .silent) := by
  obtain ⟨a, haccepts⟩ := Grammar.runs_accepts
  have hreach : Grammar.runs.Reaches ⟨6⟩ ⟨4⟩ := .single (.part rfl (List.mem_cons_self ..))
  obtain ⟨-, hparse, -, hsearch⟩ := accepted_is_safe haccepts Grammar.runs_retains
    Grammar.runs_total ['x'] hreach .silent
  have hunfolds : ∃ visited seen t, Unfolds (Source.ofList ['x']) [Grammar.runs]
      (.calling ⟨4⟩ ⟨0, 0⟩ .silent) visited seen false t ∧ seen.length = 2 ∧
      (∃ m ∈ visited, ∃ later frames, m.state.frames = .orElse later :: frames) ∧
      ∃ T T', ForcedDuring visited T T' := by
    refine ⟨_, _, _, .next rfl (.next rfl (.next rfl (.next rfl (.next rfl (.more rfl
      (.next rfl (.next rfl (.next rfl (.next rfl (.next rfl (.next rfl (.next rfl (.next rfl
        (.next rfl (.given rfl))))))))))))))), rfl, ?_, ?_⟩
    · exact ⟨_, List.mem_of_getElem? (i := 10) rfl, _, _, rfl⟩
    · exact ⟨_, _, [_, _, _, _, _, _], _, [], _, _, rfl, rfl, nofun, rfl⟩
  obtain ⟨visited, seen, t, hunfolds, hlength, ⟨m, hm, later, frames, hframes⟩, T, T', hforced⟩ :=
    hunfolds
  obtain ⟨hsound, hpart, -⟩ := hsearch visited seen false t hunfolds
  obtain ⟨hpart, hne⟩ := hpart T T' hforced
  exact ⟨a, visited, seen, t, T, T', haccepts, Grammar.runs_retains, Grammar.runs_total, hreach,
    hunfolds, hlength, hforced, hpart, hne, ⟨m, hm, later, frames, hframes, hsound m hm⟩, hparse⟩

end LazyGrammar

import LazyGrammar.Proofs.Search.Delivery
import LazyGrammar.Proofs.Search.OnDemand

/-!
# LazyGrammar.Proofs.Search.Unfolding

**What a walk has seen.** `Unfolds` unfolds the stream of a search as far as somebody looks
at it, whoever that is: it lists the states in which a step was taken and the outcomes that
came out, in order. A walk is an unfolding together with what its reader makes of the outcomes
(`Walks`), and walks are what `explore` runs (`ends_iff`).

Design points:

* The grammars of a walk are given as a list, one for each time that it has to wait for a
  rule. So the end of a walk is a function of where it starts (`Ends.unique`).
* What holds at the end of all searches is proved by induction on `Unfolds`, where a step is
  the only thing that happens; what a reader answers is proved by induction on
  `Reader.Makes`, where there is no machine.
-/

namespace LazyGrammar

variable {τ α σ κ ρ : Type}

/-! ### Notions of a walk -/

/-- A state in which a step is taken, and the grammar at that time. -/
structure Moment (τ α σ : Type) where
  grammar : Grammar τ α σ
  state : State τ α

/-- The stream of a search is unfolded as far as some outcome, or to its end. The search goes
on in the next of the grammars where it has to wait for a rule. -/
inductive Unfolds (src : Source τ) : List (Grammar τ α σ) → State τ α →
    List (Moment τ α σ) → List (Sighting τ α) → Bool → State τ α → Prop
  | next {g : Grammar τ α σ} {gs : List (Grammar τ α σ)} {s s' t : State τ α}
      {visited : List (Moment τ α σ)} {seen : List (Sighting τ α)} {ended : Bool}
      (hstep : Machine.step g src s = .next s')
      (later : Unfolds src (g :: gs) s' visited seen ended t) :
      Unfolds src (g :: gs) s (⟨g, s⟩ :: visited) seen ended t
  | more {g : Grammar τ α σ} {gs : List (Grammar τ α σ)} {s s' t : State τ α} {o : Outcome τ α}
      {tail : Tail τ α} {visited : List (Moment τ α σ)} {seen : List (Sighting τ α)}
      {ended : Bool} (hstep : Machine.step g src s = .stream o tail s')
      (later : Unfolds src (g :: gs) (s'.goTo (.force tail)) visited seen ended t) :
      Unfolds src (g :: gs) s (⟨g, s⟩ :: visited) (⟨o, tail.isKnown⟩ :: seen) ended t
  -- the same step is taken again in the next grammar, so this one does not count
  | waited {g : Grammar τ α σ} {gs : List (Grammar τ α σ)} {s s' t : State τ α} {cell : CellId}
      {visited : List (Moment τ α σ)} {seen : List (Sighting τ α)} {ended : Bool}
      (hstep : Machine.step g src s = .waiting cell s')
      (later : Unfolds src gs s' visited seen ended t) :
      Unfolds src (g :: gs) s visited seen ended t
  | given {g : Grammar τ α σ} {gs : List (Grammar τ α σ)} {s t : State τ α} {o : Outcome τ α}
      {tail : Tail τ α} (hstep : Machine.step g src s = .stream o tail t) :
      Unfolds src (g :: gs) s [⟨g, s⟩] [⟨o, tail.isKnown⟩] false t
  | ended {g : Grammar τ α σ} {gs : List (Grammar τ α σ)} {s t : State τ α}
      (hstep : Machine.step g src s = .nothing t) : Unfolds src (g :: gs) s [⟨g, s⟩] [] true t

/-- What a reader makes of the outcomes that it has looked at. -/
inductive Reader.Makes (reader : Reader τ α κ ρ) : κ → List (Sighting τ α) → Bool → ρ → Prop
  | goOn {memory memory' : κ} {x : Sighting τ α} {seen : List (Sighting τ α)} {ended : Bool}
      {r : ρ} (hreader : reader.outcome memory x.outcome x.known = .goOn memory')
      (later : Makes reader memory' seen ended r) : Makes reader memory (x :: seen) ended r
  | stop {memory : κ} {x : Sighting τ α} {r : ρ}
      (hreader : reader.outcome memory x.outcome x.known = .stop r) :
      Makes reader memory [x] false r
  | finish {memory : κ} {r : ρ} (hreader : reader.finish memory = .ok r) :
      Makes reader memory [] true r

/-- A walk comes to an answer and to a final state, by way of some moments. -/
def Walks (src : Source τ) (reader : Reader τ α κ ρ) (gs : List (Grammar τ α σ)) (memory : κ)
    (s : State τ α) (visited : List (Moment τ α σ)) (r : ρ) (t : State τ α) : Prop :=
  ∃ seen ended, Unfolds src gs s visited seen ended t ∧ reader.Makes memory seen ended r

/-- A walk that is run comes to an answer and to a final state. Where it has to wait for a
rule, it goes on in the next of the grammars. -/
inductive Ends (src : Source τ) (reader : Reader τ α κ ρ) :
    List (Grammar τ α σ) → κ → State τ α → ρ → State τ α → Prop
  | answer {g : Grammar τ α σ} {gs : List (Grammar τ α σ)} {memory : κ} {s t : State τ α} {r : ρ}
      {steps outcomes : Nat}
      (hanswer : explore g src reader steps outcomes memory s = .answer r t) :
      Ends src reader (g :: gs) memory s r t
  | waiting {g : Grammar τ α σ} {gs : List (Grammar τ α σ)} {memory memory' : κ}
      {s s' t : State τ α} {r : ρ} {cell : CellId} {steps outcomes : Nat}
      (hwaiting : explore g src reader steps outcomes memory s = .waiting cell memory' s')
      (later : Ends src reader gs memory' s' r t) : Ends src reader (g :: gs) memory s r t

variable {src : Source τ} {reader : Reader τ α κ ρ} {g : Grammar τ α σ}
  {gs : List (Grammar τ α σ)} {memory memory' : κ} {s s' t t' : State τ α} {r r' : ρ}
  {visited : List (Moment τ α σ)} {seen : List (Sighting τ α)} {ended : Bool}
  {o : Outcome τ α} {tail : Tail τ α}

/-- **Induction for a search in one grammar**, which has no other to wait for. -/
@[elab_as_elim]
theorem Unfolds.alone_induction {motive : ∀ {s : State τ α} {visited : List (Moment τ α σ)}
      {seen : List (Sighting τ α)} {ended : Bool} {t : State τ α},
      Unfolds src [g] s visited seen ended t → Prop}
    (next : ∀ {s s' t visited seen ended} (hstep : Machine.step g src s = .next s')
      (later : Unfolds src [g] s' visited seen ended t), motive later →
      motive (.next hstep later))
    (more : ∀ {s t o tail visited seen ended} (hstep : Machine.step g src s = .stream o tail s)
      (later : Unfolds src [g] (s.goTo (.force tail)) visited seen ended t), motive later →
      motive (.more hstep later))
    (given : ∀ {s o tail} (hstep : Machine.step g src s = .stream o tail s),
      motive (.given hstep))
    (ended : ∀ {s} (hstep : Machine.step g src s = .nothing s), motive (.ended hstep))
    {s visited seen ended' t} (h : Unfolds src [g] s visited seen ended' t) : motive h := by
  match h with
  | .next hstep later =>
      exact next hstep later (alone_induction next more given ended later)
  | .more hstep later =>
      obtain ⟨rfl, -⟩ := Machine.step_stream hstep
      exact more hstep later (alone_induction next more given ended later)
  | .waited _ later => cases later
  | .given hstep =>
      obtain ⟨rfl, -⟩ := Machine.step_stream hstep
      exact given hstep
  | .ended hstep =>
      obtain ⟨rfl, -⟩ := Machine.step_nothing hstep
      exact ended hstep

/-- The stream of a call begins with the call. -/
theorem Unfolds.of_call {r : Rule} {p : Place} {crumbs : Crumbs} {frames : List (Frame τ α)}
    {demand : Nat} {trace : Trace}
    (h : Unfolds src [g] ⟨.call r p crumbs, frames, demand, trace⟩ visited seen ended t) :
    ∃ s' later, visited = ⟨g, ⟨.call r p crumbs, frames, demand, trace⟩⟩ :: later ∧
      Machine.call g src r p crumbs ⟨.call r p crumbs, frames, demand, trace⟩ = .next s' ∧
      Unfolds src [g] s' later seen ended t := by
  cases h with
  | next hstep later => exact ⟨_, _, rfl, hstep, later⟩
  | more hstep => cases (Machine.step_stream hstep).2.1
  | waited _ later => cases later
  | given hstep => cases (Machine.step_stream hstep).2.1
  | ended hstep => cases (Machine.step_nothing hstep).2.1

/-- The first state that a search visits is the one where it starts. -/
theorem Unfolds.visited_eq (h : Unfolds src [g] s visited seen ended t) :
    ∃ later, visited = ⟨g, s⟩ :: later := by
  cases h with
  | waited _ later => cases later
  | _ => exact ⟨_, rfl⟩

/-- What a search visits from one of its states on, a search from there visits. -/
theorem Unfolds.from_moment {before after : List (Moment τ α σ)} {m : Moment τ α σ}
    (h : Unfolds src [g] s (before ++ m :: after) seen ended t) :
    ∃ seen, Unfolds src [g] m.state (m :: after) seen ended t := by
  induction before generalizing s seen with
  | nil =>
      obtain ⟨later, hvisited⟩ := h.visited_eq
      cases hvisited
      exact ⟨seen, h⟩
  | cons m' before ih =>
      generalize hrest : before ++ m :: after = rest at h
      rw [List.cons_append, hrest] at h
      cases h with
      | next _ later => exact ih (hrest ▸ later)
      | more _ later => exact ih (hrest ▸ later)
      | waited _ later => cases later
      | given | ended => simp at hrest

/-- **What steps keep holds in all states that a search visits.** -/
theorem Unfolds.invariant {P : State τ α → Prop} (h : Unfolds src [g] s visited seen ended t)
    (hs : P s) (hnext : ∀ {s s'}, P s → Machine.step g src s = .next s' → P s')
    (hstream : ∀ {s s' o tail}, P s → Machine.step g src s = .stream o tail s' →
      P (s'.goTo (.force tail))) : ∀ m ∈ visited, P m.state := by
  induction h using Unfolds.alone_induction with
  | next hstep _ ih => exact List.forall_mem_cons.2 ⟨hs, ih (hnext hs hstep)⟩
  | more hstep _ ih => exact List.forall_mem_cons.2 ⟨hs, ih (hstream hs hstep)⟩
  | given | ended => exact List.forall_mem_singleton.2 hs

/-- Whoever stops looking before the end has just seen an outcome. -/
theorem Unfolds.seen_ne_nil (h : Unfolds src gs s visited seen ended t) (hended : ended = false) :
    seen ≠ [] := by
  induction h with
  | next _ _ ih => exact ih hended
  | more => exact List.cons_ne_nil _ _
  | waited _ _ ih => exact ih hended
  | given => exact List.cons_ne_nil _ _
  | ended => cases hended

/-- A search that was unfolded up to an outcome was unfolded up to any outcome before it. -/
theorem Unfolds.upTo {before later : List (Sighting τ α)} {x : Sighting τ α}
    (h : Unfolds src gs s visited (before ++ x :: later) ended t) :
    ∃ visited t, Unfolds src gs s visited (before ++ [x]) false t := by
  generalize hseen : before ++ x :: later = seen at h
  induction h generalizing before with
  | next hstep _ ih =>
      obtain ⟨visited, t, hunfolds⟩ := ih hseen
      exact ⟨_, t, .next hstep hunfolds⟩
  | more hstep _ ih =>
      cases before with
      | nil =>
          -- this is the outcome, so the search is left here
          cases hseen
          exact ⟨_, _, .given hstep⟩
      | cons y before =>
          obtain ⟨rfl, hrest⟩ := List.cons.inj hseen
          obtain ⟨visited, t, hunfolds⟩ := ih hrest
          exact ⟨_, t, .more hstep hunfolds⟩
  | waited hstep _ ih =>
      obtain ⟨visited, t, hunfolds⟩ := ih hseen
      exact ⟨visited, t, .waited hstep hunfolds⟩
  | given hstep =>
      cases before with
      | nil =>
          cases hseen
          exact ⟨_, _, .given hstep⟩
      | cons y before => simp at hseen
  | ended => simp at hseen

/-! ### Walks are what is run -/

/-- A run that has come to something has taken steps up to a last one that came to it. -/
theorem Machine.steps_of_run {n : Nat} {p : Progress τ α} (h : Machine.run g src n s = p)
    (hstop : ∀ s', p ≠ .next s') :
    ∃ s', Machine.Steps g src s s' ∧ Machine.step g src s' = p := by
  induction n generalizing s with
  | zero => exact absurd h.symm (hstop s)
  | succ n ih =>
      unfold Machine.run at h
      split at h
      · next s₁ hstep =>
        obtain ⟨s', hsteps, hlast⟩ := ih h
        exact ⟨s', .head hstep hsteps, hlast⟩
      · exact ⟨s, .refl, h⟩

/-- A run that goes on has taken steps. -/
theorem Machine.Steps.of_run {n : Nat} (h : Machine.run g src n s = .next s') :
    Machine.Steps g src s s' := by
  induction n generalizing s with
  | zero =>
      cases h
      exact .refl
  | succ n ih =>
      unfold Machine.run at h
      split at h
      · next s₁ hstep => exact .head hstep (ih h)
      · next hstop => exact absurd h (hstop s')

namespace Unfolds

variable {n : Nat}

theorem of_steps (h : Machine.Steps g src s s')
    (later : ∃ visited, Unfolds src (g :: gs) s' visited seen ended t) :
    ∃ visited, Unfolds src (g :: gs) s visited seen ended t := by
  induction h using Relation.ReflTransGen.head_induction_on with
  | refl => exact later
  | head hstep _ ih =>
      obtain ⟨visited, hunfolds⟩ := ih
      exact ⟨_, .next hstep hunfolds⟩

theorem run_more (gs : List (Grammar τ α σ)) (hrun : Machine.run g src n s = .stream o tail s')
    (later : ∃ visited, Unfolds src (g :: gs) (s'.goTo (.force tail)) visited seen ended t) :
    ∃ visited, Unfolds src (g :: gs) s visited (⟨o, tail.isKnown⟩ :: seen) ended t := by
  obtain ⟨s₁, hsteps, hstream⟩ := Machine.steps_of_run hrun nofun
  obtain ⟨visited, hunfolds⟩ := later
  exact of_steps hsteps ⟨_, .more hstream hunfolds⟩

theorem run_waited {cell : CellId} (hrun : Machine.run g src n s = .waiting cell s')
    (later : ∃ visited, Unfolds src gs s' visited seen ended t) :
    ∃ visited, Unfolds src (g :: gs) s visited seen ended t := by
  obtain ⟨s₁, hsteps, hwaiting⟩ := Machine.steps_of_run hrun nofun
  obtain ⟨visited, hunfolds⟩ := later
  exact of_steps hsteps ⟨_, .waited hwaiting hunfolds⟩

theorem run_given (gs : List (Grammar τ α σ)) (hrun : Machine.run g src n s = .stream o tail t) :
    ∃ visited, Unfolds src (g :: gs) s visited [⟨o, tail.isKnown⟩] false t := by
  obtain ⟨s₁, hsteps, hstream⟩ := Machine.steps_of_run hrun nofun
  exact of_steps hsteps ⟨_, .given hstream⟩

theorem run_ended (gs : List (Grammar τ α σ)) (hrun : Machine.run g src n s = .nothing t) :
    ∃ visited, Unfolds src (g :: gs) s visited [] true t := by
  obtain ⟨s₁, hsteps, hnothing⟩ := Machine.steps_of_run hrun nofun
  exact of_steps hsteps ⟨_, .ended hnothing⟩

end Unfolds

/-- Where outcomes are delivered and nothing waits for them, they are the whole stream. -/
theorem Delivers.unfolds {go : State τ α → State τ α} {os : List (Outcome τ α)}
    (h : Delivers g src go os) (hframes : s.frames = []) :
    ∃ visited seen t, Unfolds src [g] (go s) visited seen true t ∧ seen.map (·.outcome) = os := by
  induction os generalizing go s with
  | nil =>
      obtain ⟨s', hsteps, hcontrol, hframes'⟩ := h s
      have hend : Machine.step g src s' = .nothing s' := by
        simp only [Machine.step, hcontrol, hframes', hframes]
      have hunfolds : ∃ visited, Unfolds src [g] (go s) visited [] true s' :=
        Unfolds.of_steps hsteps ⟨_, .ended hend⟩
      obtain ⟨visited, hunfolds⟩ := hunfolds
      exact ⟨visited, [], s', hunfolds, rfl⟩
  | cons o os ih =>
      obtain ⟨tail, hcomes, hrest⟩ := h
      obtain ⟨s', hsteps, hcontrol, hframes'⟩ := hcomes s
      rw [hframes] at hframes'
      have hstream : Machine.step g src s' = .stream o tail s' := by
        simp only [Machine.step, hcontrol, hframes']
      obtain ⟨_, seen, t, hlater, rfl⟩ := ih hrest hframes'
      have hunfolds :
          ∃ visited, Unfolds src [g] (go s) visited (⟨o, tail.isKnown⟩ :: seen) true t :=
        Unfolds.of_steps hsteps ⟨_, .more hstream hlater⟩
      obtain ⟨visited, hunfolds⟩ := hunfolds
      exact ⟨visited, _, t, hunfolds, rfl⟩

namespace Walks

/-- A budgeted walk that comes to an answer walks to it. -/
theorem of_answer {steps outcomes : Nat}
    (h : explore g src reader steps outcomes memory s = .answer r t) :
    ∃ visited, Walks src reader (g :: gs) memory s visited r t := by
  induction outcomes generalizing memory s with
  | zero => cases h
  | succ outcomes ih =>
      unfold explore at h
      split at h
      · next o tail s' hrun =>
        split at h
        · next hstop =>
          cases h
          obtain ⟨visited, hunfolds⟩ := Unfolds.run_given gs hrun
          exact ⟨visited, _, _, hunfolds, .stop hstop⟩
        · next memory' hgoOn =>
          obtain ⟨visited, seen, ended, hunfolds, hmakes⟩ := ih h
          obtain ⟨visited, hunfolds⟩ := Unfolds.run_more gs hrun ⟨visited, hunfolds⟩
          exact ⟨visited, _, _, hunfolds, .goOn hgoOn hmakes⟩
      · next s' hrun =>
        split at h
        · next hfinish =>
          cases h
          obtain ⟨visited, hunfolds⟩ := Unfolds.run_ended gs hrun
          exact ⟨visited, _, _, hunfolds, .finish hfinish⟩
        · cases h
      all_goals cases h

/-- A budgeted walk that has to wait goes on as it does in the next grammar. -/
theorem of_waiting {cell : CellId} {steps outcomes : Nat}
    (h : explore g src reader steps outcomes memory s = .waiting cell memory' s')
    (later : ∃ visited, Walks src reader gs memory' s' visited r t) :
    ∃ visited, Walks src reader (g :: gs) memory s visited r t := by
  induction outcomes generalizing memory s with
  | zero => cases h
  | succ outcomes ih =>
      unfold explore at h
      split at h
      · next o tail s₁ hrun =>
        split at h
        · cases h
        · next memory₁ hgoOn =>
          obtain ⟨visited, seen, ended, hunfolds, hmakes⟩ := ih h
          obtain ⟨visited, hunfolds⟩ := Unfolds.run_more gs hrun ⟨visited, hunfolds⟩
          exact ⟨visited, _, _, hunfolds, .goOn hgoOn hmakes⟩
      · split at h <;> cases h
      · cases h
      · next hrun =>
        cases h
        obtain ⟨visited, seen, ended, hunfolds, hmakes⟩ := later
        obtain ⟨visited, hunfolds⟩ := Unfolds.run_waited hrun ⟨visited, hunfolds⟩
        exact ⟨visited, _, _, hunfolds, hmakes⟩
      all_goals cases h

end Walks

namespace Ends

/-- What a walk ends with is what it ends with after one step. -/
theorem of_next (hstep : Machine.step g src s = .next s')
    (h : Ends src reader (g :: gs) memory s' r t) : Ends src reader (g :: gs) memory s r t := by
  cases h with
  | answer hanswer =>
      refine .answer ((explore_of_next hstep ?_).trans hanswer)
      rw [hanswer]
      exact nofun
  | waiting hwaiting later =>
      refine .waiting ((explore_of_next hstep ?_).trans hwaiting) later
      rw [hwaiting]
      exact nofun

/-- What a walk ends with is what it ends with after one outcome. -/
theorem of_goOn (hstep : Machine.step g src s = .stream o tail s')
    (hreader : reader.outcome memory o tail.isKnown = .goOn memory')
    (h : Ends src reader (g :: gs) memory' (s'.goTo (.force tail)) r t) :
    Ends src reader (g :: gs) memory s r t := by
  cases h with
  | answer hanswer =>
      refine .answer ((explore_of_goOn hstep hreader ?_).trans hanswer)
      rw [hanswer]
      exact nofun
  | waiting hwaiting later =>
      refine .waiting ((explore_of_goOn hstep hreader ?_).trans hwaiting) later
      rw [hwaiting]
      exact nofun

theorem of_unfolds (h : Unfolds src gs s visited seen ended t)
    (hmakes : reader.Makes memory seen ended r) : Ends src reader gs memory s r t := by
  induction h generalizing memory with
  | next hstep _ ih => exact .of_next hstep (ih hmakes)
  | more hstep later ih =>
      cases hmakes with
      | goOn hreader hmakes => exact .of_goOn hstep hreader (ih hmakes)
      | stop hreader =>
          -- a reader that has stopped has seen no outcome after this one
          exact absurd rfl (later.seen_ne_nil rfl)
  | @waited g gs s s' t cell visited seen ended hstep _ ih =>
      -- the least budget that allows a step is enough here and below
      have hexplore : explore g src reader 1 1 memory s = .waiting cell memory s' := by
        simp only [explore, Machine.run, hstep]
      exact .waiting hexplore (ih hmakes)
  | @given g gs s t o tail hstep =>
      cases hmakes with
      | goOn _ hmakes => cases hmakes
      | stop hreader =>
          have hexplore : explore g src reader 1 1 memory s = .answer r t := by
            simp only [explore, Machine.run, hstep, hreader]
          exact .answer hexplore
  | @ended g gs s t hstep =>
      cases hmakes with
      | finish hreader =>
          have hexplore : explore g src reader 1 1 memory s = .answer r t := by
            simp only [explore, Machine.run, hstep, hreader]
          exact .answer hexplore

end Ends

/-- Budgets have no influence on how a walk ends. -/
theorem explore_unique {steps steps' outcomes outcomes' : Nat} {e e' : Exploration τ α κ ρ}
    (h : explore g src reader steps outcomes memory s = e)
    (h' : explore g src reader steps' outcomes' memory s = e') (hend : e ≠ .unfinished)
    (hend' : e' ≠ .unfinished) : e = e' := by
  subst h h'
  calc explore g src reader steps outcomes memory s
      = explore g src reader (max steps steps') (max outcomes outcomes') memory s :=
        (explore_of_le (Nat.le_max_left ..) (Nat.le_max_left ..) hend).symm
    _ = explore g src reader steps' outcomes' memory s :=
        explore_of_le (Nat.le_max_right ..) (Nat.le_max_right ..) hend'

/-- **A walk has one end.** -/
theorem Ends.unique (h : Ends src reader gs memory s r t)
    (h' : Ends src reader gs memory s r' t') : r = r' ∧ t = t' := by
  induction h with
  | answer hanswer =>
      cases h' with
      | answer hanswer' =>
          cases explore_unique hanswer hanswer' nofun nofun
          exact ⟨rfl, rfl⟩
      | waiting hwaiting' _ => cases explore_unique hanswer hwaiting' nofun nofun
  | waiting hwaiting _ ih =>
      cases h' with
      | answer hanswer' => cases explore_unique hwaiting hanswer' nofun nofun
      | waiting hwaiting' later' =>
          cases explore_unique hwaiting hwaiting' nofun nofun
          exact ih later'

/-- **A walk is run to its end exactly if it is one.** -/
theorem ends_iff : Ends src reader gs memory s r t ↔
    ∃ visited, Walks src reader gs memory s visited r t := by
  constructor
  · intro h
    induction h with
    | answer hanswer => exact Walks.of_answer hanswer
    | waiting hwaiting _ ih => exact Walks.of_waiting hwaiting ih
  · rintro ⟨visited, seen, ended, hunfolds, hmakes⟩
    exact .of_unfolds hunfolds hmakes

end LazyGrammar

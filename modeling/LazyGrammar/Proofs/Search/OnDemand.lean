import LazyGrammar.Proofs.Rule.Reach
import LazyGrammar.Proofs.Search.Scope

/-!
# LazyGrammar.Proofs.Search.OnDemand

**Walks in a growing grammar.** A walk may have to wait for a rule that a supplier has
to make, and goes on in a grammar that has the rule. `Explores` follows such a walk
through any grammars at all; `Settles` says that it comes to an answer whichever way the
rules are made.

The main result is `Reads.settles`: a walk in the grammar in which every supplier has
run (`Reads`) tells how the same walk ends when it starts in any earlier stage. A walk that
settles is never left waiting for ever (`Settles.explores`).
-/

namespace LazyGrammar

variable {τ α σ κ ρ : Type}

/-! ### Notions of a walk -/

/-- A walk that starts in one grammar and, where it has to wait for a rule, goes on in
another one comes to an answer. -/
inductive Explores (src : Source τ) (reader : Reader τ α κ ρ) :
    Grammar τ α σ → κ → State τ α → ρ → Prop
  | answer {g : Grammar τ α σ} {memory : κ} {s t : State τ α} {r : ρ} {steps outcomes : Nat}
      (hanswer : explore g src reader steps outcomes memory s = .answer r t) :
      Explores src reader g memory s r
  | waiting {g g' : Grammar τ α σ} {memory memory' : κ} {s t : State τ α} {r : ρ} {cell : CellId}
      {steps outcomes : Nat}
      (hwaiting : explore g src reader steps outcomes memory s = .waiting cell memory' t)
      (later : Explores src reader g' memory' t r) : Explores src reader g memory s r

/-- A walk that starts in a stage of `g` comes to an answer and to a final state,
whichever way the rules are made that it has to wait for. -/
inductive Settles (g : Grammar τ α σ) (src : Source τ) (reader : Reader τ α κ ρ) (r : ρ)
    (t : State τ α) : Grammar τ α σ → κ → State τ α → Prop
  | answer {g₀ : Grammar τ α σ} {memory : κ} {s : State τ α} {steps outcomes : Nat}
      (hanswer : explore g₀ src reader steps outcomes memory s = .answer r t) :
      Settles g src reader r t g₀ memory s
  | waiting {g₀ : Grammar τ α σ} {memory memory' : κ} {s s' : State τ α} {cell : CellId}
      {steps outcomes : Nat}
      (hwaiting : explore g₀ src reader steps outcomes memory s = .waiting cell memory' s')
      (later : ∀ g₁ : Grammar τ α σ, g₀.Stage g₁ → g₁.Stage g →
        (∃ made, g₁.target cell = .rule made) → Settles g src reader r t g₁ memory' s') :
      Settles g src reader r t g₀ memory s

/-- A walk in one grammar, step by step. -/
inductive Reads (g : Grammar τ α σ) (src : Source τ) (reader : Reader τ α κ ρ) :
    κ → State τ α → ρ → State τ α → Prop
  | step {memory : κ} {s s' t : State τ α} {r : ρ} (hstep : Machine.step g src s = .next s')
      (later : Reads g src reader memory s' r t) : Reads g src reader memory s r t
  | goOn {memory memory' : κ} {s s' t : State τ α} {r : ρ} {o : Outcome τ α} {tail : Tail τ α}
      (hstep : Machine.step g src s = .stream o tail s')
      (hreader : reader.outcome memory o tail.isKnown = .goOn memory')
      (later : Reads g src reader memory' (s'.goTo (.force tail)) r t) :
      Reads g src reader memory s r t
  | stop {memory : κ} {s t : State τ α} {r : ρ} {o : Outcome τ α} {tail : Tail τ α}
      (hstep : Machine.step g src s = .stream o tail t)
      (hreader : reader.outcome memory o tail.isKnown = .stop r) : Reads g src reader memory s r t
  | finish {memory : κ} {s t : State τ α} {r : ρ} (hstep : Machine.step g src s = .nothing t)
      (hreader : reader.finish memory = .ok r) : Reads g src reader memory s r t

variable {g g₀ : Grammar τ α σ} {src : Source τ} {reader : Reader τ α κ ρ} {memory memory' : κ}
  {s s' t : State τ α} {r : ρ} {o : Outcome τ α} {tail : Tail τ α} {p₀ : Place} {root : Rule}

/-! ### Walks one step at a time -/

theorem Machine.run_succ_of_next {n : Nat} (hstep : Machine.step g src s = .next s') :
    Machine.run g src (n + 1) s = Machine.run g src n s' := by
  simp only [Machine.run, hstep]

/-- A walk takes its first step before everything else. -/
theorem explore_of_next {steps outcomes : Nat} (hstep : Machine.step g src s = .next s')
    (hend : explore g src reader steps outcomes memory s' ≠ .unfinished) :
    explore g src reader (steps + 1) outcomes memory s
      = explore g src reader steps outcomes memory s' := by
  cases outcomes with
  | zero => exact absurd rfl hend
  | succ outcomes =>
      have hrun : Machine.run g src (steps + 1) s = Machine.run g src steps s' :=
        Machine.run_succ_of_next hstep
      simp only [explore, hrun] at hend ⊢
      split
      · next o tail s'' hstream =>
        rw [hstream] at hend
        dsimp only at hend
        -- the step is taken from the budget up to this outcome, the later ones have one more
        split
        · rfl
        · next memory' hmemory =>
          rw [hmemory] at hend
          exact explore_of_le (Nat.le_succ _) (Nat.le_refl _) hend
      all_goals rfl

/-- A walk that goes on after an outcome ends as it does from there. -/
theorem explore_of_goOn {steps outcomes : Nat}
    (hstep : Machine.step g src s = .stream o tail s')
    (hreader : reader.outcome memory o tail.isKnown = .goOn memory')
    (hend : explore g src reader steps outcomes memory' (s'.goTo (.force tail)) ≠ .unfinished) :
    explore g src reader (steps + 1) (outcomes + 1) memory s
      = explore g src reader steps outcomes memory' (s'.goTo (.force tail)) := by
  have hrun : Machine.run g src (steps + 1) s = .stream o tail s' := by
    simp only [Machine.run, hstep]
  simp only [explore, hrun, hreader]
  exact explore_of_le (Nat.le_succ _) (Nat.le_refl _) hend

namespace Settles

/-- What a walk comes to is what it comes to after one step. -/
theorem of_next (hstep : Machine.step g₀ src s = .next s')
    (h : Settles g src reader r t g₀ memory s') : Settles g src reader r t g₀ memory s := by
  cases h with
  | answer hanswer =>
      refine .answer ((explore_of_next hstep ?_).trans hanswer)
      rw [hanswer]
      exact nofun
  | waiting hwaiting later =>
      refine .waiting ((explore_of_next hstep ?_).trans hwaiting) later
      rw [hwaiting]
      exact nofun

/-- What a walk comes to is what it comes to after one outcome. -/
theorem of_goOn (hstep : Machine.step g₀ src s = .stream o tail s')
    (hreader : reader.outcome memory o tail.isKnown = .goOn memory')
    (h : Settles g src reader r t g₀ memory' (s'.goTo (.force tail))) :
    Settles g src reader r t g₀ memory s := by
  cases h with
  | answer hanswer =>
      refine .answer ((explore_of_goOn hstep hreader ?_).trans hanswer)
      rw [hanswer]
      exact nofun
  | waiting hwaiting later =>
      refine .waiting ((explore_of_goOn hstep hreader ?_).trans hwaiting) later
      rw [hwaiting]
      exact nofun

end Settles

/-! ### Steps in an earlier stage -/

/-- A search below a rule of `g` that names only what `g₀` has. -/
def Scope.known (g₀ g : Grammar τ α σ) (root : Rule) : Scope where
  rule r := g₀.Has r ∧ g.Reaches root r
  cell cell := cell < g₀.cells.size ∧ ∃ r, g.target cell = .rule r ∧ g.Reaches root r
  site _ _ := True

theorem Scope.known_kept (h : g₀.Stage g) (hcomplete : g.Complete root) (src : Source τ) :
    (Scope.known g₀ g root).Kept g₀ src where
  part hrule hnode hpart :=
    ⟨h.closed.part _ _ hnode _ hpart, hrule.2.tail (.part (h.node _ _ hnode) hpart)⟩
  reference hrule hnode :=
    ⟨h.closed.cell _ _ _ _ hnode, hcomplete.reference hrule.2 (h.node _ _ hnode)⟩
  target hcell htarget := by
    obtain ⟨r, hr, hreach⟩ := hcell.2
    cases h.eq_of_target hr htarget
    exact ⟨h.closed.target _ _ htarget, hreach⟩
  enter _ _ _ _ := trivial
  leads _ _ := trivial

theorem Scope.known_le {g₁ : Grammar τ α σ} (h : g₀.Stage g₁) :
    (Scope.known g₀ g root).Le (Scope.known g₁ g root) where
  rule hrule := ⟨h.has hrule.1, hrule.2⟩
  cell hcell := ⟨Nat.lt_of_lt_of_le hcell.1 h.size, hcell.2⟩
  site _ := trivial

/-- A step in an earlier stage is the step in the later one, or it waits for a rule. -/
theorem Grammar.Stage.step_eq (h : g₀.Stage g) (hs : s.Within (Scope.known g₀ g root) src p₀) :
    Machine.step g₀ src s = Machine.step g src s ∨
      ∃ cell place crumbs supplier, s.control = .follow cell place crumbs ∧
        g₀.target cell = .pending supplier := by
  obtain ⟨control, frames, demand, trace⟩ := s
  obtain ⟨p, hcontrol, -⟩ := hs
  cases control with
  | call rule place crumbs =>
      left
      simp only [Machine.step, Machine.call, h.node?_eq hcontrol.2.1.1]
  | follow cell place crumbs =>
      obtain ⟨-, ⟨hcell, r, hr, -⟩, -⟩ := hcontrol
      rcases h.target hcell hr with ⟨supplier, hpending⟩ | htarget
      · exact Or.inr ⟨cell, place, crumbs, supplier, rfl, hpending⟩
      · left
        simp only [Machine.step, Machine.follow, htarget, hr]
  | _ => exact Or.inl rfl

/-- A walk settles in an earlier stage if it does so in every stage that takes the next
step as the last one does: where the stage has to wait, a later one is such a stage. -/
theorem Grammar.Stage.settles (h : g₀.Stage g) (hs : s.Within (Scope.known g₀ g root) src p₀)
    (hstep : ∀ g₁ : Grammar τ α σ, g₁.Stage g → s.Within (Scope.known g₁ g root) src p₀ →
      Machine.step g₁ src s = Machine.step g src s → Settles g src reader r t g₁ memory s) :
    Settles g src reader r t g₀ memory s := by
  rcases h.step_eq hs with heq | ⟨cell, place, crumbs, supplier, hcontrol, hpending⟩
  · exact hstep g₀ h hs heq
  · have hwait : Machine.step g₀ src s = .waiting cell s := by
      simp only [Machine.step, hcontrol, Machine.follow, hpending]
    have hexplore : explore g₀ src reader 1 1 memory s = .waiting cell memory s := by
      simp only [explore, Machine.run, hwait]
    refine .waiting hexplore ?_
    -- whatever else has been made by then, the cell leads to a rule, so the walk goes on
    intro g₁ hearlier hlater hsupplied
    obtain ⟨made, hmade⟩ := hsupplied
    have hs₁ := hs.mono (Scope.known_le hearlier)
    refine hstep g₁ hlater hs₁ ?_
    rcases hlater.step_eq hs₁ with heq | ⟨cell', _, _, _, hcontrol', hpending'⟩
    · exact heq
    · rw [hcontrol] at hcontrol'
      cases hcontrol'
      rw [hmade] at hpending'
      cases hpending'

/-- **A walk in the last stage tells how it ends in every earlier one.** -/
theorem Reads.settles (hread : Reads g src reader memory s r t) (h : g₀.Stage g)
    (hcomplete : g.Complete root) (hs : s.Within (Scope.known g₀ g root) src p₀) :
    Settles g src reader r t g₀ memory s := by
  induction hread generalizing g₀ with
  | step hstep _ ih =>
      refine h.settles hs fun g₁ h₁ hs₁ heq => ?_
      have hwithin := Machine.step_within (Scope.known_kept h₁ hcomplete src) hs₁
      rw [heq, hstep] at hwithin
      exact .of_next (heq.trans hstep) (ih h₁ hwithin)
  | goOn hstep hreader _ ih =>
      refine h.settles hs fun g₁ h₁ hs₁ heq => ?_
      have hwithin := Machine.step_within (Scope.known_kept h₁ hcomplete src) hs₁
      rw [heq, hstep] at hwithin
      exact .of_goOn (heq.trans hstep) hreader (ih h₁ hwithin.2)
  | @stop memory s t r o tail hstep hreader =>
      refine h.settles hs fun g₁ _ _ heq => ?_
      have hexplore : explore g₁ src reader 1 1 memory s = .answer r t := by
        simp only [explore, Machine.run, heq, hstep, hreader]
      exact .answer hexplore
  | @finish memory s t r hstep hreader =>
      refine h.settles hs fun g₁ _ _ heq => ?_
      have hexplore : explore g₁ src reader 1 1 memory s = .answer r t := by
        simp only [explore, Machine.run, heq, hstep, hreader]
      exact .answer hexplore

/-! ### What a walk keeps -/

/-- A reader keeps to what `M` and `A` say of its memory and of its answer, as long as
the outcomes that it looks at fit. -/
structure Reader.Keeps (reader : Reader τ α κ ρ) (src : Source τ) (p₀ : Place) (M : κ → Prop)
    (A : ρ → Prop) : Prop where
  goOn : ∀ {memory memory' o known}, M memory → o.Fits src p₀ →
    reader.outcome memory o known = .goOn memory' → M memory'
  stop : ∀ {memory r o known}, M memory → o.Fits src p₀ →
    reader.outcome memory o known = .stop r → A r
  finish : ∀ {memory r}, M memory → reader.finish memory = .ok r → A r

/-- How a walk may end that keeps to something. -/
def Exploration.Keeps (sc : Scope) (src : Source τ) (p₀ : Place) (M : κ → Prop) (A : ρ → Prop) :
    Exploration τ α κ ρ → Prop
  | .answer r _ => A r
  | .waiting _ memory s => M memory ∧ s.Within sc src p₀
  | .fault _ | .circular | .unfinished => True

theorem explore_keeps {sc : Scope} {M : κ → Prop} {A : ρ → Prop} (hsc : sc.Kept g src)
    (hreader : reader.Keeps src p₀ M A) (steps outcomes : Nat) (hmemory : M memory)
    (hs : s.Within sc src p₀) :
    (explore g src reader steps outcomes memory s).Keeps sc src p₀ M A := by
  induction outcomes generalizing memory s with
  | zero => trivial
  | succ outcomes ih =>
      have hrun := Machine.run_within hsc hs steps
      unfold explore
      split
      · next o tail s' hstream =>
        rw [hstream] at hrun
        split
        · next r hstop => exact hreader.stop hmemory hrun.1 hstop
        · next memory' hgoOn => exact ih (hreader.goOn hmemory hrun.1 hgoOn) hrun.2
      · split
        · next r hfinish => exact hreader.finish hmemory hfinish
        · trivial
      · trivial
      · next cell s' hwaiting =>
        rw [hwaiting] at hrun
        exact ⟨hmemory, hrun⟩
      · trivial
      · trivial

/-- The scope in which everything is allowed. -/
def Scope.everything : Scope := ⟨fun _ => True, fun _ => True, fun _ _ => True⟩

theorem Scope.everything_kept (g : Grammar τ α σ) (src : Source τ) :
    Scope.everything.Kept g src := by
  constructor <;> intros <;> trivial

/-- What a reader keeps to holds of its answer, through whatever grammars it walks. -/
theorem Explores.keeps {M : κ → Prop} {A : ρ → Prop} (hreader : reader.Keeps src p₀ M A)
    (h : Explores src reader g memory s r) (hmemory : M memory)
    (hs : s.Within Scope.everything src p₀) : A r := by
  induction h with
  | @answer g _ _ _ _ steps outcomes hanswer =>
      have hkeeps := explore_keeps (Scope.everything_kept g src) hreader steps outcomes hmemory hs
      rw [hanswer] at hkeeps
      exact hkeeps
  | @waiting g _ _ _ _ _ _ _ steps outcomes hwaiting _ ih =>
      have hkeeps := explore_keeps (Scope.everything_kept g src) hreader steps outcomes hmemory hs
      rw [hwaiting] at hkeeps
      exact ih hkeeps.1 hkeeps.2

/-! ### What comes of a step -/

/-- A state that is about to use the rule behind a cell. -/
def State.Follows (s : State τ α) (cell : CellId) : Prop :=
  ∃ place crumbs, s.control = .follow cell place crumbs

/-- What may come of a step that is taken in `s`. -/
def Progress.From (s : State τ α) : Progress τ α → Prop
  | .next s' => (∃ r p crumbs, s.control = .call r p crumbs) ∨
      s'.demand = s.demand ∧ s'.trace = s.trace
  | .stream o tail s' => s' = s ∧ s.control = .give o tail ∧ s.frames = []
  | .nothing s' => s' = s ∧ s.control = .finish ∧ s.frames = []
  | .waiting cell s' => s' = s ∧ s.Follows cell
  | .fault _ | .circular => True

namespace Machine

/-- A frame that takes a stream goes on without a request or an event, or gives up. -/
theorem deliver_cases (o : Outcome τ α) (tail : Tail τ α) (s : State τ α) (frame : Frame τ α) :
    (∃ s', deliver o tail s frame = .next s' ∧ s'.demand = s.demand ∧ s'.trace = s.trace) ∨
      ∃ f, deliver o tail s frame = .fault f := by
  cases frame with
  | map f =>
      simp only [deliver]
      split
      · exact Or.inl ⟨_, rfl, rfl, rfl⟩
      · split
        · exact Or.inl ⟨_, rfl, rfl, rfl⟩
        · exact Or.inr ⟨_, rfl⟩
  | orElse later => exact Or.inl ⟨_, rfl, rfl, rfl⟩
  | chainOuter chain =>
      simp only [deliver]
      split <;> exact Or.inl ⟨_, rfl, rfl, rfl⟩
  | chainInner outer chain => exact Or.inl ⟨_, rfl, rfl, rfl⟩
  | item w depth start =>
      refine Or.inl ⟨_, rfl, ?_⟩
      unfold takeItem
      split
      · exact ⟨rfl, rfl⟩
      · split <;> exact ⟨rfl, rfl⟩

/-- A call takes a step or fails. -/
theorem call_cases (g : Grammar τ α σ) (src : Source τ) (r : Rule) (p : Place) (crumbs : Crumbs)
    (s : State τ α) :
    (∃ s', call g src r p crumbs s = .next s') ∨ ∃ f, call g src r p crumbs s = .fault f := by
  unfold call
  split
  · exact Or.inr ⟨_, rfl⟩
  · split <;> exact Or.inl ⟨_, rfl⟩

/-- A call is refused, or goes on with the form of the rule. -/
theorem call_next {rule : Rule} {p : Place} {crumbs : Crumbs}
    (h : call g src rule p crumbs s = .next s') :
    ∃ info form, g.node? rule = some ⟨info, form⟩ ∧
      (crumbs.holds info.id p.consumed = true ∧ s' = State.single
          { s with trace := s.trace.record (.leftRecursion info p.consumed crumbs.depth) }
          (.circle p info) ∨
        crumbs.holds info.id p.consumed = false ∧ s' = useForm src info p
          (crumbs.enter info.id p.consumed)
          { s with trace := s.trace.record (.entered info p.consumed crumbs.depth) } form) := by
  unfold call at h
  split at h
  · cases h
  · next info form hnode =>
    refine ⟨info, form, hnode, ?_⟩
    split at h
    · next hheld =>
      cases h
      exact Or.inl ⟨hheld, rfl⟩
    · next hfresh =>
      cases h
      exact Or.inr ⟨Bool.not_eq_true _ ▸ hfresh, rfl⟩

theorem advance_cases (chain : Chain α) (p : Place) (s : State τ α) :
    (∃ s', advance chain p s = .next s' ∧ s'.demand = s.demand ∧ s'.trace = s.trace) ∨
      ∃ f, advance chain p s = .fault f := by
  unfold advance
  split
  · split
    · exact Or.inl ⟨_, rfl, rfl, rfl⟩
    · exact Or.inr ⟨_, rfl⟩
  · exact Or.inl ⟨_, rfl, rfl, rfl⟩

/-- **What comes of a step.** A search stops where it is, and only a call makes a request or
records an event. -/
theorem step_from (g : Grammar τ α σ) (src : Source τ) (s : State τ α) :
    (step g src s).From s := by
  obtain ⟨control, frames, demand, trace⟩ := s
  cases control with
  | call rule place crumbs =>
      change (call g src rule place crumbs _).From _
      rcases call_cases g src rule place crumbs ⟨.call rule place crumbs, frames, demand, trace⟩
        with ⟨s', hcall⟩ | ⟨f, hcall⟩ <;> rw [hcall]
      · exact Or.inl ⟨rule, place, crumbs, rfl⟩
      · trivial
  | follow cell place crumbs =>
      simp only [step, follow]
      split
      · exact Or.inr ⟨rfl, rfl⟩
      · trivial
      · exact ⟨rfl, place, crumbs, rfl⟩
      · trivial
  | «continue» chain place =>
      change (advance chain place _).From _
      rcases advance_cases chain place ⟨.continue chain place, frames, demand, trace⟩
        with ⟨s', hadvance, hquiet⟩ | ⟨f, hadvance⟩ <;> rw [hadvance]
      · exact Or.inr hquiet
      · trivial
  | force tail => cases tail <;> exact Or.inr ⟨rfl, rfl⟩
  | walk w =>
      refine Or.inr ?_
      unfold walk
      split <;> exact ⟨rfl, rfl⟩
  | give o tail =>
      cases frames with
      | nil => exact ⟨rfl, rfl, rfl⟩
      | cons frame frames =>
          change (deliver o tail _ frame).From _
          rcases deliver_cases o tail ⟨.give o tail, frames, demand, trace⟩ frame
            with ⟨s', hdeliver, hquiet⟩ | ⟨f, hdeliver⟩ <;> rw [hdeliver]
          · exact Or.inr hquiet
          · trivial
  | finish =>
      cases frames with
      | nil => exact ⟨rfl, rfl, rfl⟩
      | cons frame frames =>
          refine Or.inr ?_
          cases frame with
          | orElse later =>
              simp only [finish, tryLater]
              split <;> exact ⟨rfl, rfl⟩
          | _ => exact ⟨rfl, rfl⟩
  | fail f => trivial

theorem step_next (h : step g src s = .next s') :
    (∃ r p crumbs, s.control = .call r p crumbs) ∨
      s'.demand = s.demand ∧ s'.trace = s.trace := by
  have hfrom := step_from g src s
  rw [h] at hfrom
  exact hfrom

/-- A stream comes out where it is given and no frame is left. -/
theorem step_stream (h : step g src s = .stream o tail s') :
    s' = s ∧ s.control = .give o tail ∧ s.frames = [] := by
  have hfrom := step_from g src s
  rw [h] at hfrom
  exact hfrom

/-- A search ends where it finishes and no frame is left. -/
theorem step_nothing (h : step g src s = .nothing s') :
    s' = s ∧ s.control = .finish ∧ s.frames = [] := by
  have hfrom := step_from g src s
  rw [h] at hfrom
  exact hfrom

/-- A search waits where it follows a reference. -/
theorem step_waiting {cell : CellId} (h : step g src s = .waiting cell s') :
    s' = s ∧ s.Follows cell := by
  have hfrom := step_from g src s
  rw [h] at hfrom
  exact hfrom

end Machine

/-! ### Walks that settle -/

namespace Machine

variable {cell : CellId}

theorem run_waiting {n : Nat} (h : run g src n s = .waiting cell s') : s'.Follows cell := by
  induction n generalizing s with
  | zero => cases h
  | succ n ih =>
      unfold run at h
      split at h
      · exact ih h
      · obtain ⟨rfl, hfollows⟩ := step_waiting h
        exact hfollows

end Machine

theorem explore_waiting {cell : CellId} {steps outcomes : Nat}
    (h : explore g src reader steps outcomes memory s = .waiting cell memory' s') :
    s'.Follows cell := by
  induction outcomes generalizing memory s with
  | zero => cases h
  | succ outcomes ih =>
      unfold explore at h
      split at h
      · split at h
        · cases h
        · exact ih h
      · split at h <;> cases h
      · cases h
      · next cell s' hrun =>
        cases h
        exact Machine.run_waiting hrun
      · cases h
      · cases h

/-- A cell that a search below a complete rule waits for leads to a rule in the end. -/
theorem State.Within.target_of_follows {cell : CellId}
    (hs : s.Within (Scope.known g₀ g root) src p₀) (h : s.Follows cell) :
    ∃ made, g.target cell = .rule made := by
  obtain ⟨place, crumbs, hcontrol⟩ := h
  obtain ⟨p, hfollow, -⟩ := hs
  rw [hcontrol] at hfollow
  obtain ⟨-, ⟨-, made, hmade, -⟩, -⟩ := hfollow
  exact ⟨made, hmade⟩

/-- **A walk that settles comes to its answer.** What it has to wait for is made in the last
stage, so it can go on there. -/
theorem Settles.explores (h : Settles g src reader r t g₀ memory s) (hstage : g₀.Stage g)
    (hclosed : g.Closed) (hcomplete : g.Complete root)
    (hs : s.Within (Scope.known g₀ g root) src p₀) : Explores src reader g₀ memory s r := by
  induction h with
  | answer hanswer => exact .answer hanswer
  | @waiting g₀ memory memory' s s' cell steps outcomes hwaiting later ih =>
      have hreader : reader.Keeps src p₀ (fun _ => True) (fun _ => True) := by
        constructor <;> intros <;> trivial
      have hkeeps : (explore g₀ src reader steps outcomes memory s).Keeps (Scope.known g₀ g root)
          src p₀ (fun _ => True) (fun _ => True) :=
        explore_keeps (Scope.known_kept hstage hcomplete src) hreader steps outcomes trivial hs
      rw [hwaiting] at hkeeps
      obtain ⟨-, hs'⟩ := hkeeps
      have hmade := hs'.target_of_follows (explore_waiting hwaiting)
      exact .waiting hwaiting (ih g hstage (.refl hclosed) hmade (.refl hclosed)
        (hs'.mono (Scope.known_le hstage)))

end LazyGrammar

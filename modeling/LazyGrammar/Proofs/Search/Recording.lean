import LazyGrammar.Search.Explore

/-!
# LazyGrammar.Proofs.Search.Recording

**Recording has no influence on a search.** A trace is written to and never read: a step without
recording is the step with it, but for what it records (`Machine.step_silent`), and so is
whatever comes of a walk (`explore_silent`).
-/

namespace LazyGrammar

variable {τ α σ κ ρ : Type}

/-- A state that does not record. -/
def State.silent (s : State τ α) : State τ α := { s with trace := .silent }

/-- What comes of a step, without recording. -/
def Progress.silent : Progress τ α → Progress τ α
  | .next s => .next s.silent
  | .stream o tail s => .stream o tail s.silent
  | .nothing s => .nothing s.silent
  | .waiting cell s => .waiting cell s.silent
  | .fault f => .fault f
  | .circular => .circular

/-- How a walk ends, without recording. -/
def Exploration.silent : Exploration τ α κ ρ → Exploration τ α κ ρ
  | .answer r s => .answer r s.silent
  | .waiting cell memory s => .waiting cell memory s.silent
  | .fault f => .fault f
  | .circular => .circular
  | .unfinished => .unfinished

namespace Machine

theorem tryLater_silent (later : Later) (s : State τ α) :
    tryLater later s.silent = (tryLater later s).silent := by
  unfold tryLater
  split <;> rfl

theorem useForm_silent (src : Source τ) (info : RuleInfo) (p : Place) (crumbs : Crumbs)
    (s : State τ α) (form : Form τ α) :
    useForm src info p crumbs s.silent form = (useForm src info p crumbs s form).silent := by
  cases form with
  | terminal accept =>
      simp only [useForm, takeToken]
      split
      · rfl
      · split <;> rfl
  | endOfInput value =>
      simp only [useForm, takeEnd]
      split <;> rfl
  | oneOf first others => exact tryLater_silent _ s
  | _ => rfl

theorem deliver_silent (o : Outcome τ α) (tail : Tail τ α) (s : State τ α) (frame : Frame τ α) :
    deliver o tail s.silent frame = (deliver o tail s frame).silent := by
  cases frame with
  | map f =>
      simp only [deliver]
      split
      · rfl
      · split <;> rfl
  | orElse later => rfl
  | chainOuter chain =>
      simp only [deliver]
      split <;> rfl
  | chainInner outer chain => rfl
  | item w depth start =>
      simp only [deliver, takeItem]
      split
      · rfl
      · split <;> rfl

/-- Recording has no influence on a step. -/
theorem step_silent (g : Grammar τ α σ) (src : Source τ) (s : State τ α) :
    step g src s.silent = (step g src s).silent := by
  obtain ⟨control, frames, demand, trace⟩ := s
  cases control with
  | call rule place crumbs =>
      simp only [step, call, State.silent]
      split
      · rfl
      · split
        · rfl
        · exact congrArg Progress.next (useForm_silent src _ place _
            ⟨.call rule place crumbs, frames, demand, _⟩ _)
  | follow cell place crumbs =>
      simp only [step, follow, State.silent]
      split <;> rfl
  | «continue» chain place =>
      simp only [step, advance, State.silent]
      split
      · split <;> rfl
      · rfl
  | force tail => cases tail <;> rfl
  | walk w =>
      simp only [step, walk, State.silent]
      split <;> rfl
  | give o tail =>
      cases frames with
      | nil => rfl
      | cons frame frames => exact deliver_silent o tail ⟨.give o tail, frames, demand, trace⟩ frame
  | finish =>
      cases frames with
      | nil => rfl
      | cons frame frames =>
          cases frame with
          | orElse later =>
              exact congrArg Progress.next
                (tryLater_silent later ⟨.finish, frames, demand, trace⟩)
          | _ => rfl
  | fail f => rfl

theorem run_silent (g : Grammar τ α σ) (src : Source τ) (n : Nat) (s : State τ α) :
    run g src n s.silent = (run g src n s).silent := by
  induction n generalizing s with
  | zero => rfl
  | succ n ih =>
      unfold run
      rw [step_silent]
      cases step g src s with
      | next s' => exact ih s'
      | _ => rfl

end Machine

/-- **Recording has no influence on a walk**, whatever comes of it. -/
theorem explore_silent (g : Grammar τ α σ) (src : Source τ) (reader : Reader τ α κ ρ)
    (steps outcomes : Nat) (memory : κ) (s : State τ α) :
    explore g src reader steps outcomes memory s.silent
      = (explore g src reader steps outcomes memory s).silent := by
  induction outcomes generalizing memory s with
  | zero => rfl
  | succ outcomes ih =>
      simp only [explore, Machine.run_silent]
      cases Machine.run g src steps s with
      | stream o tail s' =>
          simp only [Progress.silent]
          split
          · rfl
          · exact ih _ (s'.goTo (.force tail))
      | nothing s' =>
          simp only [Progress.silent]
          split <;> rfl
      | _ => rfl

end LazyGrammar

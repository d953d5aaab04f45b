import LazyGrammar.Proofs.LazyList.Session

/-!
# LazyGrammar.Proofs.LazyList.Evaluation

**What programs come to.** `Evaluates m p a m'` says that a program answers, on a memory
and whatever waits for it, and leaves another memory. It is what the machine does
(`evaluates_iff_run`), with the calls put in the place of the stack.

Design points:

* An evaluation has a case for each turn. What a request comes to is read off its turn
  once (`evaluates_map_link` and so on).
* A run that leaves the stack it began with has evaluated its program, or it failed
  (`Reaches.leaves`). So a tail that came to be known was evaluated in between
  (`Reaches.gave`), which is how the history of a link is recovered.
-/

namespace LazyGrammar.LazyList

variable {α : Type}

/-- A program answers and leaves another memory. -/
inductive Evaluates : {kind : Kind} → Memory α → Program α kind → kind.Answer α →
    Memory α → Prop
  | done {kind : Kind} (m : Memory α) (a : kind.Answer α) : Evaluates m (.done a) a m
  | go {kind : Kind} {m m₁ m' : Memory α} {p q : Program α kind} {a : kind.Answer α}
      (turn : p.turn m = .go q m₁) (rest : Evaluates m₁ q a m') : Evaluates m p a m'
  | call {kind callee : Kind} {m m₁ m₂ m' : Memory α} {p : Program α kind}
      {q : Program α callee} {frame : Frame α callee} {next : LazyList → Program α kind}
      {b : callee.Answer α} {a : kind.Answer α} (turn : p.turn m = .call q m₁ frame next)
      (called : Evaluates m₁ q b m₂)
      (rest : Evaluates (frame.receive m₂ b).2 (next (frame.receive m₂ b).1) a m') :
      Evaluates m p a m'

/-! ### What each request comes to -/

section Requests

variable {kind : Kind} {m m' : Memory α} {ans : kind.Answer α}

theorem evaluates_done {a : kind.Answer α} : Evaluates m (.done a) ans m' ↔ ans = a ∧ m' = m := by
  constructor
  · intro h
    cases h with
    | done => exact ⟨rfl, rfl⟩
    | go turn => cases turn
    | call turn => cases turn
  · rintro ⟨rfl, rfl⟩
    exact .done _ _

theorem evaluates_of_go {p q : Program α kind} {m₁ : Memory α} (h : p.turn m = .go q m₁) :
    Evaluates m p ans m' ↔ Evaluates m₁ q ans m' := by
  constructor
  · intro heval
    cases heval with
    | done => cases h
    | go turn rest =>
      cases turn.symm.trans h
      exact rest
    | call turn => cases turn.symm.trans h
  · exact .go h

theorem evaluates_of_call {callee : Kind} {p : Program α kind} {q : Program α callee}
    {m₁ : Memory α} {frame : Frame α callee} {next : LazyList → Program α kind}
    (h : p.turn m = .call q m₁ frame next) :
    Evaluates m p ans m' ↔ ∃ b m₂, Evaluates m₁ q b m₂
      ∧ Evaluates (frame.receive m₂ b).2 (next (frame.receive m₂ b).1) ans m' := by
  constructor
  · intro heval
    cases heval with
    | done => cases h
    | go turn => cases turn.symm.trans h
    | call turn called rest =>
      cases turn.symm.trans h
      exact ⟨_, _, called, rest⟩
  · rintro ⟨b, m₂, called, rest⟩
    exact .call h called rest

theorem not_evaluates_of_fail {p : Program α kind} {fault : Fault}
    (h : p.turn m = .fail fault) : ¬ Evaluates m p ans m' := by
  intro heval
  cases heval with
  | done => cases h
  | go turn => cases turn.symm.trans h
  | call turn => cases turn.symm.trans h

variable {next : LazyList → Program α kind}

theorem evaluates_tail_ready {a : Nat} {list : LazyList}
    (h : m.tail? a = some (.ready list)) :
    Evaluates m (.tail a next) ans m' ↔ Evaluates m (next list) ans m' :=
  evaluates_of_go (Program.turn_tail_ready next h)

theorem evaluates_tail_code {a : Nat} {p : Program α .list}
    (h : m.tail? a = some (.pending (.code p))) :
    Evaluates m (.tail a next) ans m' ↔ ∃ list m₁, Evaluates (m.setTail a .taken) p list m₁
      ∧ Evaluates (m₁.setTail a (.ready list)) (next list) ans m' :=
  evaluates_of_call (Program.turn_tail_code next h)

theorem not_evaluates_tail_taken {a : Nat} (h : m.tail? a = some .taken) :
    ¬ Evaluates m (.tail a next) ans m' :=
  not_evaluates_of_fail (Program.turn_tail_taken next h)

theorem evaluates_map_nil {f : α → Program α .element} :
    Evaluates m (.map f .nil next) ans m' ↔ Evaluates m (next .nil) ans m' :=
  evaluates_of_go rfl

/-- The function is applied to the first element at once. -/
theorem evaluates_map_link {f : α → Program α .element} {a : Nat} :
    Evaluates m (.map f (.link a) next) ans m' ↔ ∃ x y m₁, m.head? a = some x
      ∧ Evaluates m (f x) y m₁
      ∧ Evaluates (m₁.add y (.pending (.code (Program.mapTail f a)))) (next (.link m₁.fresh))
          ans m' := by
  cases hx : m.head? a with
  | none =>
    refine ⟨fun h => absurd h (not_evaluates_of_fail (Program.turn_map_none next f hx)), ?_⟩
    rintro ⟨x, -, -, hx, -⟩
    cases hx
  | some x =>
    rw [evaluates_of_call (Program.turn_map_link next f hx)]
    constructor
    · rintro ⟨y, m₁, hf, hnext⟩
      exact ⟨x, y, m₁, rfl, hf, hnext⟩
    · rintro ⟨x, y, m₁, ⟨⟩, hf, hnext⟩
      exact ⟨y, m₁, hf, hnext⟩

/-- Behind the empty list the supplier runs at once, and gives the result. -/
theorem evaluates_concat_nil {that : Program α .list} :
    Evaluates m (.concat .nil that next) ans m' ↔ ∃ list m₁, Evaluates m that list m₁
      ∧ Evaluates m₁ (next list) ans m' := by
  have hturn : (Program.concat .nil that next).turn m = .call that m .plain next := rfl
  exact evaluates_of_call hturn

theorem evaluates_concat_link {that : Program α .list} {a : Nat} :
    Evaluates m (.concat (.link a) that next) ans m' ↔ ∃ x, m.head? a = some x
      ∧ Evaluates (m.add x (.pending (.code (Program.concatTail that a))))
          (next (.link m.fresh)) ans m' := by
  cases hx : m.head? a with
  | none =>
    refine ⟨fun h => absurd h (not_evaluates_of_fail (Program.turn_concat_none next that hx)), ?_⟩
    rintro ⟨x, hx, -⟩
    cases hx
  | some x =>
    rw [evaluates_of_go (Program.turn_concat_link next that hx)]
    constructor
    · exact fun h => ⟨x, rfl, h⟩
    · rintro ⟨x, ⟨⟩, h⟩
      exact h

theorem evaluates_flatMap_nil {f : α → Program α .list} :
    Evaluates m (.flatMap f .nil next) ans m' ↔ Evaluates m (next .nil) ans m' :=
  evaluates_of_go rfl

/-- The list of the first element is made at once, and what follows it is supplied when
it is needed. -/
theorem evaluates_flatMap_link {f : α → Program α .list} {a : Nat} :
    Evaluates m (.flatMap f (.link a) next) ans m' ↔ ∃ x list m₁, m.head? a = some x
      ∧ Evaluates m (f x) list m₁
      ∧ Evaluates m₁ (.concat list (Program.flatTail f a) next) ans m' := by
  cases hx : m.head? a with
  | none =>
    refine ⟨fun h => absurd h (not_evaluates_of_fail (Program.turn_flatMap_none next f hx)), ?_⟩
    rintro ⟨x, -, -, hx, -⟩
    cases hx
  | some x =>
    rw [evaluates_of_call (Program.turn_flatMap_link next f hx)]
    constructor
    · rintro ⟨list, m₁, hf, hnext⟩
      exact ⟨x, list, m₁, rfl, hf, hnext⟩
    · rintro ⟨x, list, m₁, ⟨⟩, hf, hnext⟩
      exact ⟨list, m₁, hf, hnext⟩

end Requests

/-! ### Asking for a tail -/

/-- A program that asks for a tail goes on with it, calls what is to compute it, or gives
up. -/
theorem turn_tail_cases (m : Memory α) (a : Nat) :
    (∃ list, m.tail? a = some (.ready list))
      ∨ (∃ (callee : Kind) (q : Program α callee) (frame : Frame α callee),
          frame.address? = some a ∧ ∀ {kind : Kind} (next : LazyList → Program α kind),
            (Program.tail a next).turn m = .call q (m.setTail a .taken) frame next)
      ∨ ∀ {kind : Kind} (next : LazyList → Program α kind),
          (Program.tail a next).turn m = .fail .tailInProgress := by
  cases ha : m.tail? a with
  | none => exact .inr (.inr fun next => Program.turn_tail_none next ha)
  | some t =>
    cases t with
    | ready list => exact .inl ⟨list, rfl⟩
    | taken => exact .inr (.inr fun next => Program.turn_tail_taken next ha)
    | pending thunk =>
      refine .inr (.inl ?_)
      cases thunk with
      | code p => exact ⟨_, p, .store a, rfl, fun next => Program.turn_tail_code next ha⟩
      | pull it => exact ⟨_, _, .drawn it (some a), rfl, fun next => Program.turn_tail_pull next ha⟩

/-- A tail that is found was known, or it was to be computed. -/
theorem Evaluates.ready_or_pending {kind : Kind} {m m' : Memory α} {ans : kind.Answer α}
    {a : Nat} {next : LazyList → Program α kind} (h : Evaluates m (.tail a next) ans m') :
    (∃ list, m.tail? a = some (.ready list)) ∨ ∃ thunk, m.tail? a = some (.pending thunk) := by
  cases ha : m.tail? a with
  | none => exact absurd h (not_evaluates_of_fail (Program.turn_tail_none next ha))
  | some t =>
    cases t with
    | ready list => exact .inl ⟨list, rfl⟩
    | pending thunk => exact .inr ⟨thunk, rfl⟩
    | taken => exact absurd h (not_evaluates_tail_taken ha)

/-- A program that asks for a tail finds the tail and goes on with it. -/
theorem evaluates_tail_iff {kind : Kind} {m m' : Memory α} {ans : kind.Answer α} {a : Nat}
    {next : LazyList → Program α kind} :
    Evaluates m (.tail a next) ans m' ↔ ∃ list m₁, Evaluates m (.tail a .give) list m₁
      ∧ Evaluates m₁ (next list) ans m' := by
  have hdone {list list' : LazyList} {m₁ m₂ : Memory α} :
      Evaluates m₁ (.give list) list' m₂ ↔ list' = list ∧ m₂ = m₁ := evaluates_done
  obtain ⟨list, ha⟩ | ⟨callee, q, frame, -, hturn⟩ | hturn := turn_tail_cases m a
  · rw [evaluates_tail_ready ha]
    simp only [evaluates_tail_ready ha, hdone]
    constructor
    · exact fun h => ⟨_, _, ⟨rfl, rfl⟩, h⟩
    · rintro ⟨_, _, ⟨rfl, rfl⟩, h⟩
      exact h
  · rw [evaluates_of_call (hturn _)]
    simp only [evaluates_of_call (hturn _), hdone]
    constructor
    · rintro ⟨b, m₂, hq, hnext⟩
      exact ⟨_, _, ⟨b, m₂, hq, rfl, rfl⟩, hnext⟩
    · rintro ⟨_, _, ⟨b, m₂, hq, rfl, rfl⟩, hnext⟩
      exact ⟨b, m₂, hq, hnext⟩
  · refine ⟨fun heval => absurd heval (not_evaluates_of_fail (hturn _)), ?_⟩
    rintro ⟨_, _, heval, -⟩
    exact absurd heval (not_evaluates_of_fail (hturn _))

/-! ### Evaluations and runs -/

/-- An evaluation is a run that leaves the stack as it is. -/
theorem Evaluates.moves {kind : Kind} {m m' : Memory α} {p : Program α kind}
    {a : kind.Answer α} (h : Evaluates m p a m') (stack : Stack α kind) :
    Relation.ReflTransGen State.Moves ⟨p, stack, m⟩ ⟨.done a, stack, m'⟩ := by
  induction h with
  | done m a => exact .refl
  | go turn _ ih => exact (ih stack).head (.go stack turn)
  | @call _ _ _ _ _ _ _ _ frame next b _ turn _ _ ihcalled ihrest =>
    exact ((ihcalled _).head (.call stack turn)).trans
      ((ihrest stack).head (.answer b frame next stack))

/-- Asking for a tail is a run up to what goes on with it. -/
theorem Evaluates.tail_moves {m m₁ : Memory α} {a : Nat} {list : LazyList}
    (h : Evaluates m (.tail a .give) list m₁) {kind : Kind} (next : LazyList → Program α kind)
    (stack : Stack α kind) :
    Relation.ReflTransGen State.Moves ⟨.tail a next, stack, m⟩ ⟨next list, stack, m₁⟩ := by
  obtain ⟨list', ha⟩ | ⟨callee, q, frame, -, hturn⟩ | hturn := turn_tail_cases m a
  · obtain ⟨rfl, rfl⟩ := evaluates_done.1 ((evaluates_tail_ready ha).1 h)
    exact .single (.go stack (Program.turn_tail_ready next ha))
  · obtain ⟨x, m₂, hcalled, hdone⟩ := (evaluates_of_call (hturn .give)).1 h
    obtain ⟨rfl, rfl⟩ := evaluates_done.1 hdone
    exact ((hcalled.moves _).head (.call stack (hturn next))).tail (.answer x frame next stack)
  · exact absurd h (not_evaluates_of_fail (hturn _))

/-- Joining two lists is a run up to what goes on with the joined list. -/
theorem Evaluates.concat_moves {m m' : Memory α} {source list : LazyList}
    {that : Program α .list} (h : Evaluates m (.concat source that .give) list m')
    {kind : Kind} (next : LazyList → Program α kind) (stack : Stack α kind) :
    Relation.ReflTransGen State.Moves ⟨.concat source that next, stack, m⟩
      ⟨next list, stack, m'⟩ := by
  cases source with
  | nil =>
    obtain ⟨list', m₁, hthat, hdone⟩ := evaluates_concat_nil.1 h
    obtain ⟨rfl, rfl⟩ := evaluates_done.1 hdone
    have hturn : (Program.concat .nil that next).turn m = .call that m .plain next := rfl
    exact ((hthat.moves _).head (.call stack hturn)).tail (.answer list .plain next stack)
  | link a =>
    obtain ⟨x, hx, hdone⟩ := evaluates_concat_link.1 h
    obtain ⟨rfl, rfl⟩ := evaluates_done.1 hdone
    exact .single (.go stack (Program.turn_concat_link next that hx))

/-- A stack with any number of frames on it. -/
inductive Stack.Above {goal : Kind} (stack : Stack α goal) : {kind : Kind} →
    Stack α kind → Prop
  | here : Above stack stack
  | push {kind mid : Kind} (frame : Frame α kind) (next : LazyList → Program α mid)
      {below : Stack α mid} (h : Above stack below) : Above stack (.push frame next below)

theorem Stack.Above.inProgress {goal kind : Kind} {stack : Stack α goal}
    {upper : Stack α kind} (h : stack.Above upper) {a : Nat} (ha : a ∈ stack.inProgress) :
    a ∈ upper.inProgress := by
  induction h with
  | here => exact ha
  | push frame next _ ih => exact List.mem_append_right _ ih

/-- Number of frames. -/
def Stack.depth {kind : Kind} : Stack α kind → Nat
  | .bottom => 0
  | .push _ _ below => below.depth + 1

theorem Stack.Above.depth_le {goal kind : Kind} {stack : Stack α goal}
    {upper : Stack α kind} (h : stack.Above upper) : stack.depth ≤ upper.depth := by
  induction h with
  | here => exact Nat.le_refl _
  | push frame next _ ih => exact Nat.le_succ_of_le ih

/-- A step leaves the frames above a stack only with an answer for the stack. -/
theorem Stack.Above.of_moves {goal : Kind} {stack : Stack α goal} {s s' : State α}
    (h : stack.Above s.stack) (hmove : s.Moves s') :
    stack.Above s'.stack ∨ ∃ a m, s = ⟨.done a, stack, m⟩ := by
  cases hmove with
  | answer a frame next below =>
    cases h with
    | here => exact .inr ⟨a, _, rfl⟩
    | push _ _ h => exact .inl h
  | go upper turn => exact .inl h
  | call upper turn => exact .inl (.push _ _ h)

theorem Stack.above_bottom {kind : Kind} (stack : Stack α kind) :
    (Stack.bottom : Stack α .list).Above stack := by
  induction stack with
  | bottom => exact .here
  | push frame next below ih => exact .push frame next ih

/-- The program and the frames above a stack come to an answer for the stack. -/
inductive Completes {goal : Kind} (stack : Stack α goal) :
    State α → goal.Answer α → Memory α → Prop
  | here {m m' : Memory α} {p : Program α goal} {a : goal.Answer α}
      (h : Evaluates m p a m') : Completes stack ⟨p, stack, m⟩ a m'
  | push {kind mid : Kind} {m m₁ m' : Memory α} {p : Program α kind} {b : kind.Answer α}
      {frame : Frame α kind} {next : LazyList → Program α mid} {below : Stack α mid}
      {a : goal.Answer α} (above : stack.Above below) (h : Evaluates m p b m₁)
      (rest : Completes stack
        ⟨next (frame.receive m₁ b).1, below, (frame.receive m₁ b).2⟩ a m') :
      Completes stack ⟨p, .push frame next below, m⟩ a m'

namespace Completes

variable {goal : Kind} {stack : Stack α goal} {a : goal.Answer α} {m' : Memory α}

/-- With no frame above the stack the program is evaluated. -/
theorem evaluates {m : Memory α} {p : Program α goal}
    (h : Completes stack ⟨p, stack, m⟩ a m') : Evaluates m p a m' := by
  generalize hs : (⟨p, stack, m⟩ : State α) = s at h
  cases h with
  | here h =>
    cases hs
    exact h
  | push above h rest =>
    cases hs
    exact absurd above.depth_le (Nat.not_succ_le_self _)

/-- A step above the stack does not change what it comes to. -/
theorem of_moves {s s' : State α} (hmove : s.Moves s') (habove : stack.Above s.stack)
    (habove' : stack.Above s'.stack) (h : Completes stack s' a m') : Completes stack s a m' := by
  cases hmove with
  | answer b frame next below => exact .push habove' (.done _ b) h
  | go upper turn =>
    cases h with
    | here h => exact .here (.go turn h)
    | push above h rest => exact .push above (.go turn h) rest
  | call upper turn =>
    cases h with
    | here h => exact absurd habove.depth_le (Nat.not_succ_le_self _)
    | push _ h rest =>
      cases rest with
      | here hrest => exact .here (.call turn h hrest)
      | push above hrest rest => exact .push above (.call turn h hrest) rest

end Completes

namespace Session

/-- What becomes of a run that began above a stack: it is there still, or it came to an
answer for the stack, or it failed. -/
inductive Leaves {goal : Kind} (stack : Stack α goal) (s : State α) : Session α → Prop
  | inside {t : State α} (above : stack.Above t.stack) : Leaves stack s (.work t)
  | answered {a : goal.Answer α} {m' : Memory α} {T : Session α} (h : Completes stack s a m')
      (rest : Reaches (.work ⟨.done a, stack, m'⟩) T) : Leaves stack s T
  | failed {t : State α} {fault : Fault} {T : Session α} (above : stack.Above t.stack)
      (reaches : Reaches (.work s) (.work t)) (turn : t.program.turn t.memory = .fail fault)
      (rest : Reaches (.rest t.memory) T) : Leaves stack s T

theorem Reaches.leaves {goal : Kind} {stack : Stack α goal} {s : State α} {T : Session α}
    (h : Reaches (.work s) T) (habove : stack.Above s.stack) : Leaves stack s T := by
  generalize hS : Session.work s = S at h
  induction h using Relation.ReflTransGen.head_induction_on generalizing s with
  | refl =>
    subst hS
    exact .inside habove
  | head hnext hrest ih =>
    subst hS
    cases hnext with
    | finish list m =>
      cases habove with
      | here => exact .answered (.here (.done _ _)) (.head (.finish _ _) hrest)
    | fail turn => exact .failed habove .refl turn hrest
    | move hmove =>
      obtain habove' | ⟨a, m, rfl⟩ := habove.of_moves hmove
      · cases ih habove' rfl with
        | inside above => exact .inside above
        | answered h rest => exact .answered (h.of_moves hmove habove habove') rest
        | failed above reaches turn rest =>
          exact .failed above (.head (.move hmove) reaches) turn rest
      · exact .answered (.here (.done m a)) (.head (.move hmove) hrest)

end Session

theorem exists_run_of_moves {s s' : State α}
    (h : Relation.ReflTransGen State.Moves s s') : ∃ n, run n s = .next s' := by
  induction h using Relation.ReflTransGen.head_induction_on with
  | refl => exact ⟨0, rfl⟩
  | head hmove _ ih =>
    obtain ⟨n, hn⟩ := ih
    exact ⟨n + 1, by simp only [run, State.moves_iff.1 hmove, hn]⟩

theorem moves_of_finished {n : Nat} {s : State α} {list : LazyList} {m : Memory α}
    (h : run n s = .finished list m) :
    Relation.ReflTransGen State.Moves s ⟨.done list, .bottom, m⟩ := by
  induction n generalizing s with
  | zero => cases h
  | succ n ih =>
    simp only [run] at h
    cases hs : step s with
    | next s₁ =>
      simp only [hs] at h
      exact (ih h).head (State.moves_iff.2 hs)
    | finished list' m' =>
      simp only [hs] at h
      cases h
      rw [step_eq_finished_iff.1 hs]
    | fault fault m' => simp [hs] at h

theorem completes_of_moves {s : State α} {list : LazyList} {m : Memory α}
    (h : Relation.ReflTransGen State.Moves s ⟨.done list, .bottom, m⟩) :
    Completes Stack.bottom s list m := by
  induction h using Relation.ReflTransGen.head_induction_on with
  | refl => exact .here (.done _ _)
  | head hmove _ ih => exact ih.of_moves hmove (Stack.above_bottom _) (Stack.above_bottom _)

/-- An evaluation is what the machine comes to. -/
theorem evaluates_iff_run {m m' : Memory α} {p : Program α .list} {list : LazyList} :
    Evaluates m p list m' ↔ ∃ n, run n ⟨p, .bottom, m⟩ = .finished list m' := by
  constructor
  · intro h
    obtain ⟨n, hn⟩ := exists_run_of_moves (h.moves .bottom)
    exact ⟨n + 1, by rw [run_add, hn]; rfl⟩
  · rintro ⟨n, hrun⟩
    exact (completes_of_moves (moves_of_finished hrun)).evaluates

/-! ### How a tail came to be known -/

/-- Only a program that asks for a tail makes a call that keeps one. -/
theorem eq_tail_of_call {kind callee : Kind} {p : Program α kind} {q : Program α callee}
    {m m' : Memory α} {frame : Frame α callee} {next : LazyList → Program α kind} {b : Nat}
    (h : p.turn m = .call q m' frame next) (hb : frame.address? = some b) :
    p = .tail b next := by
  unfold Program.turn at h
  split at h <;> try split at h
  all_goals cases h
  all_goals cases hb
  all_goals rfl

namespace Session

/-- A tail stays as it is to be computed until it is asked for. -/
theorem Next.pending {S T : Session α} (h : S.Next T) (hS : S.Sound) {b : Nat}
    {p : Program α .list} (hb : S.memory.tail? b = some (.pending (.code p))) :
    T.memory.tail? b = some (.pending (.code p))
      ∨ ∃ (goal : Kind) (next : LazyList → Program α goal) (stack : Stack α goal)
          (m : Memory α), S = .work ⟨.tail b next, stack, m⟩
          ∧ T = .work ⟨p, .push (.store b) next stack, m.setTail b .taken⟩ := by
  cases h with
  | request | finish | fail => exact .inl hb
  | move h =>
    cases h with
    | @answer _ _ m x frame next below =>
      have hne : frame.address? ≠ some b := fun h => by
        have htaken : m.tail? b = some .taken :=
          Stack.Holds.taken hS (List.mem_append_left _ (by simp [h]))
        have hb : m.tail? b = some (.pending (.code p)) := hb
        simp [hb] at htaken
      left
      have hmade := frame.made_tail? x hb
      simp only [memory_work, Frame.receive, Memory.keep]
      split
      · next a ha =>
        have hba : b ≠ a := fun h => hne (h ▸ ha)
        rw [Memory.tail?_setTail_of_ne hba]
        exact hmade
      · exact hmade
    | go stack turn => exact .inl ((edit_of_go turn).tail? hb)
    | @call _ _ p₀ _ m _ frame next stack turn =>
      obtain ⟨-, hsame⟩ | ⟨a, thunk, ha, hpending, rfl⟩ := (call_of_turn turn).takes
      · exact .inl ((hsame b).trans hb)
      · by_cases hab : a = b
        · subst hab
          obtain rfl := eq_tail_of_call turn ha
          cases turn.symm.trans (Program.turn_tail_code next hb)
          exact .inr ⟨_, _, _, _, rfl, rfl⟩
        · left
          simp only [memory_work] at hb ⊢
          rw [Memory.tail?_setTail_of_ne (Ne.symm hab), hb]

/-- Between two moments of a session a program was run and gave an answer. -/
def Gave (S : Session α) {kind : Kind} (p : Program α kind) (a : kind.Answer α)
    (T : Session α) : Prop :=
  ∃ (stack : Stack α kind) (m m' : Memory α), S.Reaches (.work ⟨p, stack, m⟩)
    ∧ Evaluates m p a m' ∧ Reaches (.work ⟨.done a, stack, m'⟩) T

/-- A call that keeps its answer as a tail has come back if this tail is known. -/
theorem Reaches.stored {goal : Kind} {p : Program α .list} {b : Nat}
    {next : LazyList → Program α goal} {stack : Stack α goal} {m : Memory α} {T : Session α}
    {list : LazyList} (h : Reaches (.work ⟨p, .push (.store b) next stack, m⟩) T)
    (hS : (Session.work ⟨p, .push (.store b) next stack, m⟩).Sound)
    (hT : T.memory.tail? b = some (.ready list)) :
    Gave (.work ⟨p, .push (.store b) next stack, m⟩) p list T := by
  have hmem : b ∈ (Stack.push (.store b) next stack).inProgress :=
    List.mem_append_left _ (.head _)
  cases h.leaves .here with
  | @inside t above =>
    have htaken := (h.sound hS).1.taken (above.inProgress hmem)
    cases htaken.symm.trans hT
  | @failed t fault _ above reaches turn rest =>
    have htaken := (reaches.sound hS).1.taken (above.inProgress hmem)
    cases ((rest.spoiled htaken List.not_mem_nil).1).symm.trans hT
  | @answered list' m₂ _ hcompletes rest =>
    have heval : Evaluates m p list' m₂ := hcompletes.evaluates
    have hdone := ((reaches_of_moves (heval.moves _)).sound hS).1
    have htaken : m₂.tail? b = some .taken := hdone.taken hmem
    obtain rfl | ⟨S₂, hnext₂, hrest₂⟩ := rest.cases_head
    · cases htaken.symm.trans hT
    · -- The next step keeps the answer, so it is the tail that is known later on.
      have hready : S₂.memory.tail? b = some (.ready list') := by
        cases hnext₂ with
        | fail turn => cases turn
        | move hmove =>
          cases hmove with
          | answer => simp [Frame.receive, Frame.made, Frame.address?, Memory.keep,
              Memory.tail?_setTail, htaken]
          | go _ turn => cases turn
          | call _ turn => cases turn
      have hgrows := (Reaches.sound hrest₂ (hnext₂.sound hdone).1).2
      obtain rfl : list' = list := by simpa using (hgrows.ready hready).symm.trans hT
      exact ⟨_, m, m₂, .refl, heval, rest⟩

/-- A tail that came to be known was computed, in between, by what was to compute it. -/
theorem Reaches.gave {S T : Session α} (h : S.Reaches T) (hS : S.Sound) {b : Nat}
    {p : Program α .list} {list : LazyList}
    (hb : S.memory.tail? b = some (.pending (.code p)))
    (hT : T.memory.tail? b = some (.ready list)) : S.Gave p list T := by
  induction h using Relation.ReflTransGen.head_induction_on with
  | refl => cases hb.symm.trans hT
  | head hnext hrest ih =>
    obtain ⟨hS', -⟩ := hnext.sound hS
    obtain hb' | ⟨goal, next, stack, m, rfl, rfl⟩ := hnext.pending hS hb
    · obtain ⟨stack, m₁, m₂, hreaches, rest⟩ := ih hS' hb'
      exact ⟨stack, m₁, m₂, .head hnext hreaches, rest⟩
    · obtain ⟨stack', m₁, m₂, hreaches, rest⟩ := Reaches.stored hrest hS' hT
      exact ⟨stack', m₁, m₂, .head hnext hreaches, rest⟩

end Session

/-- A session at rest may go on with a request, up to its answer. -/
theorem Evaluates.reaches {m m' : Memory α} {p : Program α .list} {list : LazyList}
    (h : Evaluates m p list m') : Session.Reaches (.rest m) (.rest m') :=
  ((Session.reaches_of_moves (h.moves .bottom)).head (.request m p)).tail (.finish list m')

end LazyGrammar.LazyList

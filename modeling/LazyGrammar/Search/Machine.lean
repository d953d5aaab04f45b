import LazyGrammar.Search.Source
import LazyGrammar.Search.Stream
import LazyGrammar.Search.Trace

/-!
# LazyGrammar.Search.Machine

The **search machine**: how a rule's outcomes are found, one step at a time. A state
holds what is to be done now, the frames of the work that waits for it, the number
of requests made to the token source, and the trace.

Design points:

* A step is a plain function without recursion. Depth of the grammar and length of
  the input show only in the number of steps and in the frames.
* What a frame does with the stream delivered to it is the same whether the stream
  comes from a call or from a tail: a tail is resumed by pushing the frame again.
* A rule behind a reference may not exist yet. Then the machine waits, in a state
  from which it goes on once the cell is filled.
* Every use of a rule goes through `Control.call`, which is where trails grow, where
  left recursion is noticed, and where events are recorded.
-/

namespace LazyGrammar

variable {τ α σ : Type}

/-- Work that waits for a stream. -/
inductive Frame (τ α : Type)
  /-- Change the values. -/
  | map (f : α → Except Fault α)
  /-- Go on with later alternatives. -/
  | orElse (later : Later)
  /-- Continue a sequence after each outcome of its current rule. -/
  | chainOuter (chain : Chain α)
  /-- After the outcomes of the rest of a sequence, look for further outcomes of its
  current rule in the tail. -/
  | chainInner (outer : Tail τ α) (chain : Chain α)
  /-- Take an outcome of an item at depth `depth`, tried at position `start`. -/
  | item (walk : Walk τ α (Tail τ α)) (depth start : Nat)
  deriving Inhabited

/-- What is to be done now. -/
inductive Control (τ α : Type)
  /-- Use a rule at a place. -/
  | call (rule : Rule) (place : Place) (crumbs : Crumbs)
  /-- Use the rule behind a cell. -/
  | follow (cell : CellId) (place : Place) (crumbs : Crumbs)
  /-- Match the rest of a sequence. -/
  | continue (chain : Chain α) (place : Place)
  /-- Look for the outcomes of a tail. -/
  | force (tail : Tail τ α)
  /-- Look for the next run of items. -/
  | walk (walk : Walk τ α (Tail τ α))
  /-- Deliver a stream to the first frame. -/
  | give (head : Outcome τ α) (tail : Tail τ α)
  /-- Tell the first frame that a tail has nothing more. -/
  | finish
  /-- Give up: the function of a terminal has raised a fault. -/
  | fail (f : Fault)
  deriving Inhabited

/-- A state of the machine. -/
structure State (τ α : Type) where
  control : Control τ α
  frames : List (Frame τ α)
  /-- How many tokens the source has been asked for. -/
  demand : Nat
  trace : Trace
  deriving Inhabited

/-- What comes of a step. -/
inductive Progress (τ α : Type)
  | next (s : State τ α)
  /-- A stream for whoever runs the machine. -/
  | stream (head : Outcome τ α) (tail : Tail τ α) (s : State τ α)
  /-- Nothing more for whoever runs the machine. -/
  | nothing (s : State τ α)
  | fault (f : Fault)
  /-- The rule in the cell has to be made first. -/
  | waiting (cell : CellId) (s : State τ α)
  | circular
  deriving Inhabited

namespace State

/-- Goes on with something else. -/
def goTo (s : State τ α) (control : Control τ α) : State τ α := { s with control }

/-- Goes on with something that a new frame waits for. -/
def push (s : State τ α) (frame : Frame τ α) (control : Control τ α) : State τ α :=
  { s with control, frames := frame :: s.frames }

/-- Delivers a single outcome. -/
def single (s : State τ α) (o : Outcome τ α) : State τ α := s.goTo (.give o .done)

/-- The source has been asked for the token after the one with index `i`. -/
def demandAfter (s : State τ α) (i : Nat) : State τ α :=
  { s with demand := max s.demand (i + 2) }

end State

/-- The failure of a rule that is entered again where it was entered before. -/
def Outcome.circle (place : Place) (rule : RuleInfo) : Outcome τ α :=
  .failure ⟨place.consumed, .leftRecursion rule⟩ place.next

namespace Machine

/-- Starts trying alternatives. The outcomes of the last one come as they are. -/
def tryLater (later : Later) (s : State τ α) : State τ α :=
  match later.others with
  | [] => s.goTo (.call later.rule later.place later.crumbs)
  | rule :: others =>
    s.push (.orElse { later with rule, others }) (.call later.rule later.place later.crumbs)

/-- Matches one token. A rule that takes the token has the source asked for the
token after it. -/
def takeToken (src : Source τ) (accept : τ → Except Fault (Option α)) (place : Place)
    (s : State τ α) : State τ α :=
  match src.token place.next with
  | none => s.single (.failure ⟨place.consumed, .unexpectedEnd⟩ place.next)
  | some t =>
    match accept t with
    | .ok (some v) => (s.demandAfter place.next).single (.success place.advance v)
    | .ok none => s.single (.failure ⟨place.consumed, .unexpected t⟩ place.next)
    | .error f => s.goTo (.fail f)

/-- Matches the end of the input. -/
def takeEnd (src : Source τ) (value : α) (place : Place) (s : State τ α) : State τ α :=
  match src.token place.next with
  | none => s.single (.success place value)
  | some t => s.single (.failure ⟨place.consumed, .expectedEnd t⟩ place.next)

/-- Matches a form. The trail already has the rule itself. -/
def useForm (src : Source τ) (info : RuleInfo) (place : Place) (crumbs : Crumbs)
    (s : State τ α) : Form τ α → State τ α
  | .terminal accept => takeToken src accept place s
  | .epsilon value => s.single (.success place value)
  | .endOfInput value => takeEnd src value place s
  | .map inner f => s.push (.map f) (.call inner place crumbs)
  | .repetition item collect => s.goTo (.walk ⟨item, info, crumbs, collect, [], [.start 0 place]⟩)
  | .reference cell _ => s.goTo (.follow cell place crumbs)
  | .oneOf first others => tryLater ⟨first, others, place, crumbs⟩ s
  | .sequence first others build =>
    s.push (.chainOuter ⟨others, [], crumbs, build⟩) (.call first place crumbs)

/-- Uses a rule: refuses to go round in circles, otherwise extends the trail. -/
def call (g : Grammar τ α σ) (src : Source τ) (rule : Rule) (place : Place) (crumbs : Crumbs)
    (s : State τ α) : Progress τ α :=
  match g.node? rule with
  | none => .fault .undefinedRule
  | some ⟨info, form⟩ =>
    if crumbs.holds info.id place.consumed then
      let s := { s with trace := s.trace.record (.leftRecursion info place.consumed crumbs.depth) }
      .next (s.single (.circle place info))
    else
      let s := { s with trace := s.trace.record (.entered info place.consumed crumbs.depth) }
      .next (useForm src info place (crumbs.enter info.id place.consumed) s form)

/-- Uses the rule behind a cell. -/
def follow (g : Grammar τ α σ) (cell : CellId) (place : Place) (crumbs : Crumbs)
    (s : State τ α) : Progress τ α :=
  match g.target cell with
  | .rule r => .next (s.goTo (.call r place crumbs))
  | .fault f => .fault f
  | .pending _ => .waiting cell s
  | .circular => .circular

/-- Matches the rest of a sequence, or builds its value once nothing is left. -/
def advance (chain : Chain α) (place : Place) (s : State τ α) : Progress τ α :=
  match chain.rules with
  | [] =>
    match chain.build chain.values with
    | .ok v => .next (s.single (.success place v))
    | .error f => .fault f
  | rule :: rules =>
    .next (s.push (.chainOuter { chain with rules }) (.call rule place chain.crumbs))

/-- Looks for the outcomes of a tail. -/
def force (s : State τ α) : Tail τ α → State τ α
  | .done => s.goTo .finish
  | .mapped f inner => s.push (.map f) (.force inner)
  | .orElse first later => s.push (.orElse later) (.force first)
  | .chained inner outer chain => s.push (.chainInner outer chain) (.force inner)
  | .walking walk => s.goTo (.walk walk)

/-- Looks for the next run of items: tries an item that has not been tried, or the
next outcome of one that has. -/
def walk (w : Walk τ α (Tail τ α)) (s : State τ α) : State τ α :=
  match w.stack with
  | [] => s.goTo .finish
  | .start depth place :: stack =>
    s.push (.item { w with stack } depth place.consumed) (.call w.item place w.crumbs)
  | .visit depth start _ tail :: stack =>
    s.push (.item { w with stack } depth start) (.force tail)

/-- Takes an outcome of an item. An item that consumes nothing would go on for ever,
so it ends its run with a failure; any other item is where a longer run starts. -/
def takeItem (w : Walk τ α (Tail τ α)) (depth start : Nat) (o : Outcome τ α) (tail : Tail τ α)
    (s : State τ α) : State τ α :=
  let stack := .visit depth start o tail :: w.stack
  match o.result with
  | .error e => s.goTo (.give (.failure e o.place.next) (.walking { w with stack }))
  | .ok v =>
    if o.place.consumed = start then
      s.goTo (.give (.failure ⟨start, .leftRecursion w.info⟩ o.place.next)
        (.walking { w with stack }))
    else
      let values := w.values.take depth ++ [v]
      s.goTo (.give (.success o.place (w.collect values))
        (.walking { w with values, stack := .start (depth + 1) o.place :: stack }))

/-- Delivers a stream to a frame. -/
def deliver (o : Outcome τ α) (tail : Tail τ α) (s : State τ α) : Frame τ α → Progress τ α
  | .map f =>
    match o.result with
    | .error _ => .next (s.goTo (.give o (.mapped f tail)))
    | .ok v =>
      match f v with
      | .ok w => .next (s.goTo (.give (.success o.place w) (.mapped f tail)))
      | .error e => .fault e
  | .orElse later => .next (s.goTo (.give o (.orElse tail later)))
  | .chainOuter chain =>
    match o.result with
    | .error e => .next (s.goTo (.give (.failure e o.place.next) (.chained .done tail chain)))
    | .ok v =>
      .next (s.push (.chainInner tail chain)
        (.continue { chain with values := chain.values ++ [v] } o.place))
  | .chainInner outer chain => .next (s.goTo (.give o (.chained tail outer chain)))
  | .item w depth start => .next (takeItem w depth start o tail s)

/-- Tells a frame that there is nothing more. -/
def finish (s : State τ α) : Frame τ α → State τ α
  | .map _ | .chainOuter _ => s.goTo .finish
  | .orElse later => tryLater later s
  | .chainInner outer chain => s.push (.chainOuter chain) (.force outer)
  | .item w _ _ => s.goTo (.walk w)

/-- One step of the machine. -/
def step (g : Grammar τ α σ) (src : Source τ) (s : State τ α) : Progress τ α :=
  match s.control with
  | .call rule place crumbs => call g src rule place crumbs s
  | .follow cell place crumbs => follow g cell place crumbs s
  | .continue chain place => advance chain place s
  | .force tail => .next (force s tail)
  | .walk w => .next (walk w s)
  | .give o tail =>
    match s.frames with
    | [] => .stream o tail s
    | frame :: frames => deliver o tail { s with frames } frame
  | .finish =>
    match s.frames with
    | [] => .nothing s
    | frame :: frames => .next (finish { s with frames } frame)
  | .fail f => .fault f

/-- At most the given number of steps. -/
def run (g : Grammar τ α σ) (src : Source τ) : Nat → State τ α → Progress τ α
  | 0, s => .next s
  | n + 1, s =>
    match step g src s with
    | .next s' => run g src n s'
    | stop => stop

/-- Steps are taken one after another, so a run can be cut anywhere. -/
theorem run_add (g : Grammar τ α σ) (src : Source τ) (m n : Nat) (s : State τ α) :
    run g src (m + n) s =
      match run g src m s with
      | .next s' => run g src n s'
      | stop => stop := by
  induction m generalizing s with
  | zero => simp [run]
  | succ m ih =>
    rw [Nat.add_right_comm]
    simp only [run]
    cases step g src s with
    | next s' => exact ih s'
    | _ => rfl

/-- A run that has come to something comes to the same with more steps. -/
theorem run_of_le {g : Grammar τ α σ} {src : Source τ} {m n : Nat} (hle : m ≤ n)
    {s : State τ α} (hs : ∀ s', run g src m s ≠ .next s') : run g src n s = run g src m s := by
  obtain ⟨k, rfl⟩ := Nat.exists_eq_add_of_le hle
  rw [run_add]
  split
  · next s' h => exact absurd h (hs s')
  · rfl

end Machine

end LazyGrammar

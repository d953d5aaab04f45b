import LazyGrammar.Search.Machine

/-!
# LazyGrammar.Search.Explore

**Walking a stream of outcomes.** A `Reader` looks at one outcome after another and
may stop at any of them; no outcome after that is looked for. `explore` runs the
machine for a reader, `verdict` is the reader of a parse, and `collect` the one that
simply keeps outcomes.

Design points:

* Machine steps and outcomes are counted against a budget. Running out of it says
  nothing about the answer; an answer found with some budget is found with every
  larger one.
* Where the machine has to wait for a rule to be made, so does the walk, and both go
  on from where they were.
-/

namespace LazyGrammar

variable {τ α σ κ ρ : Type}

/-- What a reader does after an outcome. -/
inductive Decision (κ ρ : Type)
  | stop (answer : ρ)
  | goOn (memory : κ)
  deriving Inhabited

/-- A way of walking a stream, with a memory of type `κ` and an answer of type `ρ`. -/
structure Reader (τ α κ ρ : Type) where
  /-- Looks at an outcome. The flag tells whether its tail is known already. -/
  outcome : κ → Outcome τ α → Bool → Decision κ ρ
  /-- The answer at the end of the stream. -/
  finish : κ → Except Fault ρ

/-- How a walk ends. -/
inductive Exploration (τ α κ ρ : Type)
  | answer (r : ρ) (s : State τ α)
  | fault (f : Fault)
  /-- The rule in the cell has to be made first. -/
  | waiting (cell : CellId) (memory : κ) (s : State τ α)
  | circular
  /-- The budget was too small. -/
  | unfinished
  deriving Inhabited

/-- Walks a stream, over at most `outcomes` outcomes with at most `steps` machine steps
for each. -/
def explore (g : Grammar τ α σ) (src : Source τ) (reader : Reader τ α κ ρ) (steps : Nat) :
    Nat → κ → State τ α → Exploration τ α κ ρ
  | 0, _, _ => .unfinished
  | outcomes + 1, memory, s =>
    match Machine.run g src steps s with
    | .stream o tail s =>
      match reader.outcome memory o tail.isKnown with
      | .stop r => .answer r s
      | .goOn memory => explore g src reader steps outcomes memory (s.goTo (.force tail))
    | .nothing s =>
      match reader.finish memory with
      | .ok r => .answer r s
      | .error f => .fault f
    | .fault f => .fault f
    | .waiting cell s => .waiting cell memory s
    | .circular => .circular
    | .next _ => .unfinished

/-- A walk that ends within a budget ends in the same way within every larger one. -/
theorem explore_of_le {g : Grammar τ α σ} {src : Source τ} {reader : Reader τ α κ ρ}
    {steps steps' outcomes outcomes' : Nat} (hsteps : steps ≤ steps')
    (houtcomes : outcomes ≤ outcomes') {memory : κ} {s : State τ α}
    (hend : explore g src reader steps outcomes memory s ≠ .unfinished) :
    explore g src reader steps' outcomes' memory s
      = explore g src reader steps outcomes memory s := by
  induction outcomes generalizing outcomes' memory s with
  | zero => exact absurd rfl hend
  | succ outcomes ih =>
    obtain ⟨more, rfl⟩ : ∃ more, outcomes' = more + 1 := ⟨outcomes' - 1, by omega⟩
    have hrun : Machine.run g src steps' s = Machine.run g src steps s := by
      refine Machine.run_of_le hsteps fun s' h => hend ?_
      simp [explore, h]
    simp only [explore, hrun] at hend ⊢
    split
    · next o tail s' hstream =>
      rw [hstream] at hend
      dsimp only at hend
      split
      · rfl
      · next memory' hmemory =>
        rw [hmemory] at hend
        exact ih (by omega) hend
    all_goals rfl

/-! ### Where a search starts -/

/-- The state in which a rule is about to be used. Making the input a list has the
source asked for one token. -/
def State.calling (rule : Rule) (place : Place) (trace : Trace) : State τ α :=
  ⟨.call rule place .root, [], 1, trace⟩

/-- The state in which a rule's own form is about to be matched, without the rule
being on the trail. -/
def State.matching (g : Grammar τ α σ) (src : Source τ) (rule : Rule) (place : Place) :
    Option (State τ α) :=
  (g.node? rule).map fun node =>
    Machine.useForm src node.info place .root ⟨.finish, [], 1, .silent⟩ node.form

/-! ### Verdicts -/

/-- The answer of a parse. -/
abbrev Verdict (τ α : Type) := Except (ParseErrors τ) α

/-- Takes a failure into account. -/
def mergeInto (furthest : Option (ParseErrors τ)) (e : ParseError τ) : ParseErrors τ :=
  match furthest with
  | some es => es.merge e
  | none => .single e

/-- The message for a stream that ends without any outcome, which no rule has. -/
def noOutcome : Fault :=
  .raised "Parsing failed, but no errors were emitted. This is troubling, to say the least."

/-- The reader of a parse: the first success decides, and so does the first failure
that blames the grammar; otherwise the failures that got furthest are kept. -/
def verdict : Reader τ α (Option (ParseErrors τ)) (Verdict τ α) where
  outcome furthest o _ :=
    match o.result with
    | .ok v => .stop (.ok v)
    | .error e =>
      if e.isLeftRecursion then .stop (.error (.single e))
      else .goOn (some (mergeInto furthest e))
  finish
    | some es => .ok (.error es)
    | none => .error noOutcome

/-! ### Collecting outcomes -/

/-- An outcome, and whether its tail was known when it was reached. -/
structure Sighting (τ α : Type) where
  outcome : Outcome τ α
  known : Bool
  deriving Inhabited

/-- What a collection has so far, and how many more outcomes it wants, if there is a
limit. -/
structure Basket (τ α : Type) where
  sightings : Array (Sighting τ α)
  wanted : Option Nat
  deriving Inhabited

/-- Keeps the outcomes of a stream. The tail after the last wanted outcome is not
looked at. -/
def collect : Reader τ α (Basket τ α) (Array (Sighting τ α)) where
  outcome basket o known :=
    match basket.wanted with
    | none => .goOn ⟨basket.sightings.push ⟨o, known⟩, none⟩
    | some 0 => .stop basket.sightings
    | some 1 => .stop (basket.sightings.push ⟨o, known⟩)
    | some (n + 2) => .goOn ⟨basket.sightings.push ⟨o, known⟩, some (n + 1)⟩
  finish basket := .ok basket.sightings

end LazyGrammar

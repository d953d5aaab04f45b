import LazyGrammar.Workbench.Build

/-!
# LazyGrammar.Workbench.Session

**Sessions**: sequences of steps on one workbench, each with its answer. A step makes
or defines a rule, makes a parser, asks for properties, or parses in one of several
ways. A step that is refused leaves the workbench as it is at that moment, and the
next step goes on from there.

The input of a step is prepared before its rule is made.
-/

namespace LazyGrammar

/-! ### Steps and answers -/

/-- Which outcomes of a stream a step asks for. -/
structure StreamRequest where
  rule : Description
  input : InputDescription
  limit : Option Nat
  deriving Repr, Inhabited

/-- A step of a session. -/
inductive SessionStep
  /-- Make a rule and name it. -/
  | bind (name : String) (rule : Description)
  | define (name : String) (rule : Description)
  | drop (name : String)
  | info (rule : Description)
  | parser (rule : Description)
  | properties (rule : Description)
  | leftRecursive
  | parse (input : InputDescription)
  | parseRule (rule : Description) (input : InputDescription)
  | traced (input : InputDescription)
  | outcomes (request : StreamRequest)
  /-- The outcomes of the rule's own form, without the rule being on the trail. -/
  | partly (consumed : Nat) (request : StreamRequest)
  | call (consumed : Nat) (request : StreamRequest)
  /-- Parse on a source that is asked for one token after the other. -/
  | pulled (rule : Description) (input : InputDescription) (endless : Bool)
  /-- Parse several inputs. -/
  | parseAll (inputs : List InputDescription)
  deriving Repr, Inhabited

/-- An outcome of a stream, with what is shown of it. -/
structure SeenOutcome where
  sighting : Sighting Value Value
  /-- The tokens that are left. -/
  remaining : List Value
  deriving Inhabited

/-- The answer of a step. -/
inductive SessionAnswer
  | nothing
  | info (i : RuleInfo)
  | properties (p : Option Properties)
  | rules (is : List RuleInfo)
  | verdict (v : Verdict Value Value)
  | traced (v : Verdict Value Value) (events : List ParseEvent)
  | stream (outcomes : List SeenOutcome)
  | pulled (tokens : Nat) (v : Verdict Value Value)
  | all (answers : List SessionAnswer)
  | refused (r : Refusal)
  deriving Inhabited

namespace Work

/-! ### Parts of steps -/

/-- The tokens of an input. -/
def tokens (lexer : Option LexerDescription) (input : InputDescription) : Work (List Value) :=
  match input.tokens lexer with
  | .ok vs => return vs
  | .error e => throw (.input e)

/-- The current parser. -/
def currentParser : Work Parser := do
  match (← get).parser with
  | some p => return p
  | none => throw (.badRequest .noParser)

/-- Makes a described rule. -/
def rule (budget : Nat) (d : Description) : Work Rule := build budget budget d

/-- Uses a rule on a source from its start, with a reader. -/
def use {κ ρ : Type} (budget : Nat) (src : Source Value) (reader : Reader Value Value κ ρ)
    (memory : κ) (s : State Value Value) : Work (ρ × State Value Value) := do
  modify Workbench.tidy
  walk (rule budget) budget src reader budget memory s

/-- Parses with a rule. Gives the verdict and the final state. -/
def parseWith (budget : Nat) (r : Rule) (src : Source Value) (trace : Trace) :
    Work (Verdict Value Value × State Value Value) :=
  withHeld do
    hold r
    use budget src LazyGrammar.verdict none (.calling r ⟨0, 0⟩ trace)

/-- An outcome with the tokens that are left of `count` tokens. -/
def see (src : Source Value) (count : Nat) (x : Sighting Value Value) : SeenOutcome :=
  ⟨x, src.tokensFrom count x.outcome.place.next⟩

/-- The outcomes of a stream that starts in a state. -/
def streamFrom (budget : Nat) (count : Nat) (src : Source Value) (limit : Option Nat)
    (s : State Value Value) : Work SessionAnswer := do
  let (found, _) ← use budget src LazyGrammar.collect ⟨#[], limit⟩ s
  return .stream (found.toList.map (see src count))

/-- The outcomes of a described rule, from the state that `start` gives. -/
def stream (lexer : Option LexerDescription) (budget : Nat) (request : StreamRequest)
    (start : ValueGrammar → Source Value → Rule → State Value Value) : Work SessionAnswer := do
  let vs ← tokens lexer request.input
  let src := Source.ofList vs
  let r ← rule budget request.rule
  withHeld do
    hold r
    streamFrom budget vs.length src request.limit (start (← get).grammar src r)

/-- How many tokens have been taken from a finite source of `count` tokens, or from an
endless one. -/
def taken (endless : Bool) (count demand : Nat) : Nat :=
  if endless && count != 0 then demand else min count demand

/-! ### Whole steps -/

/-- Does a step. -/
def perform (lexer : Option LexerDescription) (budget : Nat) : SessionStep → Work SessionAnswer
  | .bind name d => do
    let r ← rule budget d
    modify fun w => w.bind name r
    return .info ((← get).grammar.info r)
  | .define name d => do
    let declared ← named name
    withHeld do
      hold declared
      let definition ← rule budget d
      let kept := (← get).roots
      hold definition
      modify Workbench.tidy
      let (answer, grammar) := (← get).grammar.offer kept declared definition
      modify fun w => { w with grammar }
      match answer with
      | .ok () => return .nothing
      | .error f => throw (.fault f)
  | .drop name => do
    modify fun w => w.unbind name
    return .nothing
  | .info d => do
    let r ← rule budget d
    return .info ((← get).grammar.info r)
  | .parser d => do
    modify fun w => { w with parser := none }
    let root ← rule budget d
    withHeld do
      hold root
      modify Workbench.tidy
      let analysis ← survey (rule budget) budget (.start root)
      modify fun w => { w with parser := some ⟨root, analysis⟩ }
      return .info ((← get).grammar.info root)
  | .properties d => do
    let p ← currentParser
    let r ← rule budget d
    return .properties (p.analysis.properties? ((← get).grammar.info r).id)
  | .leftRecursive => do return .rules (← currentParser).analysis.leftRecursiveRules
  | .parse input => do
    let vs ← tokens lexer input
    let (v, _) ← parseWith budget (← currentParser).root (.ofList vs) .silent
    return .verdict v
  | .parseRule d input => do
    let vs ← tokens lexer input
    let r ← rule budget d
    let (v, _) ← parseWith budget r (.ofList vs) .silent
    return .verdict v
  | .traced input => do
    let vs ← tokens lexer input
    let (v, s) ← parseWith budget (← currentParser).root (.ofList vs) .recorded
    return .traced v s.trace.events
  | .outcomes request =>
    stream lexer budget request fun _ _ r => .calling r ⟨0, 0⟩ .silent
  | .partly consumed request =>
    stream lexer budget request fun g src r =>
      (State.matching g src r ⟨consumed, 0⟩).getD (.calling r ⟨consumed, 0⟩ .silent)
  | .call consumed request =>
    stream lexer budget request fun _ _ r => .calling r ⟨consumed, 0⟩ .silent
  | .pulled d input endless => do
    let vs ← tokens lexer input
    let src := if endless then Source.cycle vs else Source.ofList vs
    let r ← rule budget d
    let (v, s) ← parseWith budget r src .silent
    return .pulled (taken endless vs.length s.demand) v
  | .parseAll inputs => do
    let all ← inputs.mapM (tokens lexer)
    let p ← currentParser
    return .all (← all.mapM fun vs =>
      tryCatch (do
        let (v, _) ← parseWith budget p.root (.ofList vs) .silent
        return .verdict v)
      fun refusal => return .refused refusal)

end Work

/-! ### Sessions -/

/-- The answer of a step, and the workbench after it. -/
def answerStep (lexer : Option LexerDescription) (budget : Nat) (w : Workbench)
    (step : SessionStep) : SessionAnswer × Workbench :=
  match (Work.perform lexer budget step).run { w with held := [] } with
  | (.ok a, w) => (a, w)
  | (.error r, w) => (.refused r, w)

/-- The answers of steps on a workbench. -/
def answerSteps (lexer : Option LexerDescription) (budget : Nat) (w : Workbench) :
    List SessionStep → List SessionAnswer
  | [] => []
  | step :: steps =>
    let (a, w) := answerStep lexer budget w step
    a :: answerSteps lexer budget w steps

/-- The answers of a session. -/
def runSession (lexer : Option LexerDescription) (budget : Nat) (steps : List SessionStep) :
    List SessionAnswer :=
  answerSteps lexer budget .empty steps

end LazyGrammar

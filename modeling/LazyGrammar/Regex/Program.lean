import LazyGrammar.Regex.Term

/-!
# LazyGrammar.Regex.Program

**Programs for the matcher.** A program is a list of instructions; a fork prefers its
first branch. A term is compiled backwards, from the instruction that comes after
it, so that the only instructions filled in later are the forks of loops.

A loop whose body can match nothing is entered through a fork of its own: the fork
at the end of the body then decides only about another time round, and an empty time
round cannot spoil the preference between staying and leaving.
-/

namespace LazyGrammar.Regex

/-- An instruction. -/
inductive Inst
  /-- Takes one character of the set. -/
  | chars (set : Text.Ranges) (next : Nat)
  /-- Goes on in one of two ways, rather the first. -/
  | fork (first second : Nat)
  /-- Remembers the place in a slot. -/
  | save (slot next : Nat)
  | look (condition : Look) (next : Nat)
  | accept
  deriving Repr, Inhabited

/-- Instructions, and which of them is the first. -/
structure Program where
  code : Array Inst
  start : Nat
  deriving Repr, Inhabited

/-- Adds an instruction and gives its address. -/
def emit (inst : Inst) : StateM (Array Inst) Nat :=
  modifyGet fun code => (code.size, code.push inst)

/-- A fork that goes into a loop or past it, in the preferred order. -/
def loopFork (greedy : Bool) (body after : Nat) : Inst :=
  if greedy then .fork body after else .fork after body

/-- Repeats a step that turns an address into another one. -/
def repeatStep (step : Nat → StateM (Array Inst) Nat) : Nat → Nat → StateM (Array Inst) Nat
  | 0, next => pure next
  | n + 1, next => do repeatStep step n (← step next)

/-- A loop of one time round or more. Gives the address of the first time round and
that of the fork after each. -/
def emitLoop (greedy : Bool) (body : Nat → StateM (Array Inst) Nat) (next : Nat) :
    StateM (Array Inst) (Nat × Nat) := do
  let fork ← emit (.fork next next)
  let start ← body fork
  modify fun code => code.setIfInBounds fork (loopFork greedy start next)
  return (start, fork)

mutual

/-- Compiles a term, to go on at `next`. -/
def compile (t : Term) (next : Nat) : StateM (Array Inst) Nat :=
  match t with
  | .empty => pure next
  | .chars set => emit (.chars set.toRanges next)
  | .look condition => emit (.look condition next)
  | .capture index inner => do
    let stop ← emit (.save (2 * index + 1) next)
    let start ← compile inner stop
    emit (.save (2 * index) start)
  | .concat items => compileAll items next
  | .alternate branches => compileAny branches next
  | .repeated inner least none greedy =>
    match least with
    | 0 => do
      let (start, fork) ← emitLoop greedy (compile inner) next
      if inner.shortest?.any (0 < ·) then pure fork
      else emit (loopFork greedy start next)
    | n + 1 => do
      let (start, _) ← emitLoop greedy (compile inner) next
      repeatStep (compile inner) n start
  | .repeated inner least (some most) greedy => do
    let optional (after : Nat) : StateM (Array Inst) Nat := do
      let start ← compile inner after
      emit (loopFork greedy start next)
    let start ← repeatStep optional (most - least) next
    repeatStep (compile inner) least start

/-- Compiles terms one after another. -/
def compileAll (ts : List Term) (next : Nat) : StateM (Array Inst) Nat :=
  match ts with
  | [] => pure next
  | t :: ts => do compile t (← compileAll ts next)

/-- Compiles alternatives. -/
def compileAny (ts : List Term) (next : Nat) : StateM (Array Inst) Nat :=
  match ts with
  | [] => emit (.chars CharSet.none.toRanges next)
  | [t] => compile t next
  | t :: ts => do
    let others ← compileAny ts next
    let first ← compile t next
    emit (.fork first others)

end

/-- The program of a term. -/
def Program.ofTerm (t : Term) : Program :=
  let (start, code) := (do compile t (← emit .accept)).run #[]
  ⟨code, start⟩

end LazyGrammar.Regex

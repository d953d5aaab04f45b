import LazyGrammar.Regex.ClassReader

/-!
# LazyGrammar.Regex.PatternReader

**Written patterns**: what a text in the usual notation for patterns stands for.
Groups that are open are kept on a stack; the flags in force are part of the state
and come back to what they were where a group ends. A pattern may be nested at most
`nestingBound` deep, where classes, groups, repetitions, sequences and choices are
a level each.
-/

namespace LazyGrammar.Regex

/-! ### The state of reading -/

/-- A term with the depth to which its notation is nested. -/
structure NestedTerm where
  term : Term
  depth : Nat
  deriving Repr, Inhabited

/-- A part of a sequence. A setting of flags stands for nothing and cannot be
repeated. -/
inductive Piece
  | term (t : NestedTerm)
  | setting
  deriving Repr, Inhabited

/-- The term of a part, unless it is a setting. -/
def Piece.term? : Piece → Option Term
  | .term t => some t.term
  | .setting => none

/-- The depth of a part. -/
def Piece.depth : Piece → Nat
  | .term t => t.depth
  | .setting => 0

/-- A group that is open, with what was read before it. -/
structure OpenGroup where
  /-- The parts before the group, the last one first. -/
  before : List Piece
  /-- The branches before the one the group is in, the last one first. -/
  branches : List NestedTerm
  /-- The number of the group, if it is remembered. -/
  capture : Option Nat
  /-- The flags around the group. -/
  flags : Flags
  deriving Repr, Inhabited

/-- What has been read of a pattern. -/
structure PatternState where
  /-- The parts of the current branch, the last one first. -/
  pieces : List Piece
  /-- The branches before the current one, the last one first. -/
  branches : List NestedTerm
  /-- The groups that are open, the innermost first. -/
  groups : List OpenGroup
  flags : Flags
  /-- The number of the last remembered group. -/
  captures : Nat
  /-- The names of remembered groups. -/
  names : List (String × Nat)
  deriving Repr, Inhabited

namespace PatternState

/-- The state at the start of a pattern. -/
def initial : PatternState := ⟨[], [], [], .initial, 0, []⟩

/-- Adds a part whose notation is nested to some depth. -/
def add (st : PatternState) (t : Term) (depth : Nat) : PatternState :=
  { st with pieces := .term ⟨t, depth⟩ :: st.pieces }

/-- The current branch as a term. -/
def branch (st : PatternState) : NestedTerm :=
  ⟨.sequence (st.pieces.reverse.filterMap Piece.term?),
    depthOf st.pieces.length ((st.pieces.map Piece.depth).foldl max 0)⟩

/-- All branches as a term. -/
def whole (st : PatternState) : NestedTerm :=
  let branches := (st.branch :: st.branches).reverse
  ⟨.choice (branches.map (·.term)),
    depthOf branches.length ((branches.map (·.depth)).foldl max 0)⟩

/-- Starts the next branch. -/
def nextBranch (st : PatternState) : PatternState :=
  { st with pieces := [], branches := st.branch :: st.branches }

/-- Opens a group. -/
def openGroup (st : PatternState) (capture : Option Nat) (flags : Flags) : PatternState :=
  { st with
    pieces := []
    branches := []
    groups := ⟨st.pieces, st.branches, capture, st.flags⟩ :: st.groups
    flags }

/-- Opens a group that is remembered. -/
def openCapture (st : PatternState) : PatternState :=
  { st.openGroup (some (st.captures + 1)) st.flags with captures := st.captures + 1 }

/-- Closes the innermost group. -/
def closeGroup (st : PatternState) : Option PatternState :=
  match st.groups with
  | [] => none
  | group :: groups =>
    let inner := st.whole
    let t :=
      match group.capture with
      | some index => .capture index inner.term
      | none => inner.term
    some { st with
      pieces := .term ⟨t, inner.depth + 1⟩ :: group.before
      branches := group.branches
      groups
      flags := group.flags }

/-- Repeats the last part. Only something that can match may be repeated. -/
def repeatLast (st : PatternState) (least : Nat) (most : Option Nat) (greedy : Bool) :
    Option PatternState :=
  match st.pieces with
  | .term t :: pieces =>
    let greedy := greedy != st.flags.lazySwap
    let t := ⟨.repetition t.term least most greedy, t.depth + 1⟩
    some { st with pieces := .term t :: pieces }
  | _ => none

end PatternState

/-! ### Groups -/

/-- Alphabetic characters, ready for look-up. -/
def alphabetics : Text.Ranges := (CharSet.ofRanges Text.alphabetic).toRanges

/-- Numbers, ready for look-up. -/
def numbers : Text.Ranges := (CharSet.ofRanges Text.number).toRanges

/-- Whether a character may start the name of a group. -/
def startsName (c : Char) : Bool := c == '_' || alphabetics.has c

/-- Whether a character may be in the name of a group. -/
def inName (c : Char) : Bool :=
  startsName c || c == '.' || c == '[' || c == ']' || numbers.has c

/-- Reads the name of a group, from after the angle bracket. -/
def readName (cs : List Char) : Option (String × List Char) :=
  match cs.takeWhile (· != '>'), cs.dropWhile (· != '>') with
  | c :: name, '>' :: rest =>
    if startsName c && name.all inName then some (String.ofList (c :: name), rest) else none
  | _, _ => none

/-- Settings of flags under way. -/
structure FlagState where
  flags : Flags
  on : Bool
  /-- The letters seen so far. -/
  seen : List Char
  deriving Repr, Inhabited

/-- Reads settings of flags up to the character that ends them. No letter may occur
twice, and a minus must have a letter after it. -/
def readFlags (st : FlagState) : List Char → Option (FlagState × Char × List Char)
  | [] => none
  | c :: rest =>
    if c == ':' || c == ')' then some (st, c, rest)
    else if c == '-' then
      match rest with
      | d :: _ =>
        if !st.on || d == ':' || d == ')' then none
        else readFlags { st with on := false } rest
      | [] => none
    else if st.seen.contains c then none
    else do
      let flags ← st.flags.set? st.on c
      readFlags { st with flags, seen := c :: st.seen } rest

/-- Opens a group with a name. -/
def readNamedGroup (st : PatternState) (cs : List Char) : Option (PatternState × List Char) := do
  let (name, rest) ← readName cs
  if (st.names.lookup name).isSome then none
  else
    let opened := st.openCapture
    return ({ opened with names := (name, opened.captures) :: st.names }, rest)

/-- Reads the start of a group or a setting of flags, from after the parenthesis.
There is no look-around. -/
def readGroup (st : PatternState) (cs : List Char) : Option (PatternState × List Char) :=
  match skip st.flags.verbose cs with
  | '?' :: '=' :: _ | '?' :: '!' :: _ | '?' :: '<' :: '=' :: _ | '?' :: '<' :: '!' :: _ => none
  | '?' :: 'P' :: '<' :: rest | '?' :: '<' :: rest => readNamedGroup st rest
  | '?' :: rest => do
    let (settings, last, rest) ← readFlags ⟨st.flags, true, []⟩ rest
    if last == ':' then return (st.openGroup none settings.flags, rest)
    else if settings.seen.isEmpty then none
    else return ({ st with pieces := .setting :: st.pieces, flags := settings.flags }, rest)
  | rest => some (st.openCapture, rest)

/-! ### Repetitions -/

/-- Repeats the last part as `?`, `*` or `+` say, lazily if a question mark follows. -/
def readRepetition (st : PatternState) (least : Nat) (most : Option Nat) (cs : List Char) :
    Option (PatternState × List Char) :=
  match cs with
  | '?' :: rest => (st.repeatLast least most false).map (·, rest)
  | rest => (st.repeatLast least most true).map (·, rest)

/-- Reads the bounds of a repetition, from after the brace. -/
def readBounds (verbose : Bool) (cs : List Char) : Option ((Nat × Option Nat) × List Char) := do
  let (least, rest) ← readCount verbose (skip verbose cs)
  match rest with
  | '\x7d' :: rest => return ((least, some least), rest)
  | ',' :: rest =>
    match skip verbose rest with
    | '\x7d' :: rest => return ((least, none), rest)
    | rest =>
      let (most, rest) ← readCount verbose rest
      match rest with
      | '\x7d' :: rest => if least ≤ most then return ((least, some most), rest) else none
      | _ => none
  | _ => none

/-! ### Whole patterns -/

/-- Reads one part of a pattern. -/
def readPart (st : PatternState) (c : Char) (rest : List Char) :
    Option (PatternState × List Char) :=
  let f := st.flags
  match c with
  | '(' => readGroup st rest
  | ')' => st.closeGroup.map (·, rest)
  | '|' => some (st.nextBranch, rest)
  | '[' => (readClass f rest).map fun (item, rest) => (st.add (.chars item.set) item.depth, rest)
  | '?' => readRepetition st 0 (some 1) rest
  | '*' => readRepetition st 0 none rest
  | '+' => readRepetition st 1 none rest
  | '\x7b' =>
    if st.pieces.isEmpty then none
    else do
      let ((least, most), rest) ← readBounds f.verbose rest
      readRepetition st least most (skip f.verbose rest)
  | '\\' => do
    let (atom, rest) ← readEscape f.verbose rest
    return (st.add (← atom.toTerm f) 0, rest)
  | '.' => (dotSet f).map fun set => (st.add (.chars set) 0, rest)
  | '^' => some (st.add (.look (caretLook f)) 0, rest)
  | '$' => some (st.add (.look (dollarLook f)) 0, rest)
  | c => (Atom.toTerm f (.char c false)).map fun t => (st.add t 0, rest)

/-- Reads parts until nothing is left. -/
def readParts : Nat → PatternState → List Char → Option PatternState
  | 0, _, _ => none
  | fuel + 1, st, cs =>
    match skip st.flags.verbose cs with
    | [] => some st
    | c :: rest =>
      match readPart st c rest with
      | some (st, rest) => readParts fuel st rest
      | none => none

/-- A pattern that has been read: its term, the number of its remembered groups, and
their names. -/
structure ReadPattern where
  term : Term
  captures : Nat
  names : List (String × Nat)
  deriving Repr, Inhabited

/-- How deep a pattern may be nested. -/
def nestingBound : Nat := 250

/-- Reads a pattern, if it is well formed. -/
def readPattern (cs : List Char) : Option ReadPattern :=
  match readParts (cs.length + 1) .initial cs with
  | some st =>
    let whole := st.whole
    if st.groups.isEmpty && whole.depth ≤ nestingBound then
      some ⟨whole.term, st.captures, st.names⟩
    else none
  | none => none

end LazyGrammar.Regex

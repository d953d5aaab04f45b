import LazyGrammar.LazyList.Heap

/-!
# LazyGrammar.LazyList.Machine

**Running programs over lazy lists**, one step at a time. A state holds the memory,
the program that runs, and the stack of the programs that wait for it.

Design points:

* What a program does next is its `turn`: it answers, gives up, goes on by itself, or
  calls another program first. Everything that is particular to a request is in its
  turn; the machine itself knows only these four.
* A frame says what becomes of the answer of a call. Computing one tail may need
  another one, and so on: the frames that store a tail are this chain.
* A fault leaves the memory as it is at that moment. The links in progress stay taken,
  everything that was finished stays known, and all other thunks stay as they were.
-/

namespace LazyGrammar.LazyList

variable {α : Type}

/-- What becomes of the answer of a call. -/
inductive Frame (α : Type) : Kind → Type
  /-- It is used as it is. -/
  | plain : Frame α .list
  /-- It is kept as the tail of a link. -/
  | store (address : Nat) : Frame α .list
  /-- It is the first element of the mapped list that starts with a link. -/
  | mapped (f : α → Program α .element) (address : Nat) : Frame α .element
  /-- It is what an iterator gave: the first element of a list, which is the tail of
  the link that held the iterator. -/
  | drawn (it : Iterator α) (address : Option Nat) : Frame α .item

/-- The programs that wait: each has made a call and goes on with the list that the
frame makes of its answer. -/
inductive Stack (α : Type) : Kind → Type
  | bottom : Stack α .list
  | push {kind goal : Kind} (frame : Frame α kind) (next : LazyList → Program α goal)
      (below : Stack α goal) : Stack α kind

/-- What a program does next. -/
inductive Turn (α : Type) (kind : Kind)
  | answer (a : kind.Answer α)
  | fail (fault : Fault)
  /-- It goes on as another program. -/
  | go (program : Program α kind) (m : Memory α)
  /-- It calls a program and goes on with the list that the frame makes of its answer. -/
  | call {callee : Kind} (program : Program α callee) (m : Memory α) (frame : Frame α callee)
      (next : LazyList → Program α kind)

/-- A state of the machine. -/
structure State (α : Type) where
  {kind : Kind}
  program : Program α kind
  stack : Stack α kind
  memory : Memory α

/-- What comes of a step. -/
inductive Progress (α : Type)
  | next (s : State α)
  | finished (list : LazyList) (m : Memory α)
  | fault (f : Fault) (m : Memory α)

/-- What a program does next. Asking for the tail of a link whose thunk has been taken
is a fault. -/
def Program.turn {kind : Kind} (m : Memory α) : Program α kind → Turn α kind
  | .done a => .answer a
  | .raise fault => .fail fault
  | .note notes next => .go next (m.note notes)
  | .readNotes next => .go (next m.notes) m
  | .look list next => .go (next (m.look list)) m
  | .tail address next =>
    match m.tail? address with
    | some (.ready list) => .go (next list) m
    | some (.pending (.code p)) => .call p (m.setTail address .taken) (.store address) next
    | some (.pending (.pull it)) =>
      .call it.question (m.setTail address .taken) (.drawn it (some address)) next
    | some .taken | none => .fail .tailInProgress
  | .cons x list next => .go (next (.link m.fresh)) (m.add x (.ready list))
  | .new x p next => .go (next (.link m.fresh)) (m.add x (.pending (.code (p m.fresh))))
  | .lazy source next =>
    let it : Iterator α := ⟨m.iterators, source, 0⟩
    .call it.question m.openIterator (.drawn it none) next
  | .map _ .nil next => .go (next .nil) m
  | .map f (.link address) next =>
    match m.head? address with
    | some x => .call (f x) m (.mapped f address) next
    | none => .fail .tailInProgress
  | .concat .nil that next => .call that m .plain next
  | .concat (.link address) that next =>
    match m.head? address with
    | some x =>
      .go (next (.link m.fresh)) (m.add x (.pending (.code (Program.concatTail that address))))
    | none => .fail .tailInProgress
  | .flatMap _ .nil next => .go (next .nil) m
  | .flatMap f (.link address) next =>
    match m.head? address with
    | some x =>
      .call (f x) m .plain fun list => .concat list (Program.flatTail f address) next
    | none => .fail .tailInProgress

namespace Program

variable {kind : Kind} {m : Memory α} {a : Nat} (next : LazyList → Program α kind)

/-- Asking for a tail depends on what is known of it. -/
theorem turn_tail :
    (tail a next).turn m =
      match m.tail? a with
      | some (.ready list) => .go (next list) m
      | some (.pending (.code p)) => .call p (m.setTail a .taken) (.store a) next
      | some (.pending (.pull it)) =>
        .call it.question (m.setTail a .taken) (.drawn it (some a)) next
      | some .taken | none => .fail .tailInProgress := rfl

theorem turn_tail_ready {list : LazyList} (h : m.tail? a = some (.ready list)) :
    (tail a next).turn m = .go (next list) m := by
  rw [turn_tail, h]

theorem turn_tail_code {p : Program α .list} (h : m.tail? a = some (.pending (.code p))) :
    (tail a next).turn m = .call p (m.setTail a .taken) (.store a) next := by
  rw [turn_tail, h]

theorem turn_tail_pull {it : Iterator α} (h : m.tail? a = some (.pending (.pull it))) :
    (tail a next).turn m
      = .call it.question (m.setTail a .taken) (.drawn it (some a)) next := by
  rw [turn_tail, h]

theorem turn_tail_taken (h : m.tail? a = some .taken) :
    (tail a next).turn m = .fail .tailInProgress := by
  rw [turn_tail, h]

theorem turn_tail_none (h : m.tail? a = none) :
    (tail a next).turn m = .fail .tailInProgress := by
  rw [turn_tail, h]

/-- Mapping calls the function for the head of a link. -/
theorem turn_map (f : α → Program α .element) :
    (map f (.link a) next).turn m =
      match m.head? a with
      | some x => .call (f x) m (.mapped f a) next
      | none => .fail .tailInProgress := rfl

theorem turn_map_link (f : α → Program α .element) {x : α} (h : m.head? a = some x) :
    (map f (.link a) next).turn m = .call (f x) m (.mapped f a) next := by
  rw [turn_map, h]

theorem turn_map_none (f : α → Program α .element) (h : m.head? a = none) :
    (map f (.link a) next).turn m = .fail .tailInProgress := by
  rw [turn_map, h]

/-- Joining makes a link with the head of another one. -/
theorem turn_concat (that : Program α .list) :
    (concat (.link a) that next).turn m =
      match m.head? a with
      | some x =>
        .go (next (.link m.fresh)) (m.add x (.pending (.code (concatTail that a))))
      | none => .fail .tailInProgress := rfl

theorem turn_concat_link (that : Program α .list) {x : α} (h : m.head? a = some x) :
    (concat (.link a) that next).turn m
      = .go (next (.link m.fresh)) (m.add x (.pending (.code (concatTail that a)))) := by
  rw [turn_concat, h]

theorem turn_concat_none (that : Program α .list) (h : m.head? a = none) :
    (concat (.link a) that next).turn m = .fail .tailInProgress := by
  rw [turn_concat, h]

/-- Flattening calls the function for the head of a link, and joins the rest. -/
theorem turn_flatMap (f : α → Program α .list) :
    (flatMap f (.link a) next).turn m =
      match m.head? a with
      | some x => .call (f x) m .plain fun list => .concat list (flatTail f a) next
      | none => .fail .tailInProgress := rfl

theorem turn_flatMap_link (f : α → Program α .list) {x : α} (h : m.head? a = some x) :
    (flatMap f (.link a) next).turn m
      = .call (f x) m .plain fun list => .concat list (flatTail f a) next := by
  rw [turn_flatMap, h]

theorem turn_flatMap_none (f : α → Program α .list) (h : m.head? a = none) :
    (flatMap f (.link a) next).turn m = .fail .tailInProgress := by
  rw [turn_flatMap, h]

end Program

namespace Frame

/-- The link whose tail the frame keeps. -/
def address? {kind : Kind} : Frame α kind → Option Nat
  | .store address => some address
  | .drawn _ address => address
  | .plain | .mapped _ _ => none

/-- The list that a frame makes of an answer, and the memory with it. -/
def made {kind : Kind} (m : Memory α) : Frame α kind → kind.Answer α → LazyList × Memory α
  | .plain, list | .store _, list => (list, m)
  | .mapped f address, x =>
    (.link m.fresh, m.add x (.pending (.code (Program.mapTail f address))))
  | .drawn it _, some x => (.link m.fresh, m.add x (.pending (.pull it.advance)))
  | .drawn _ _, none => (.nil, m)

/-- Makes a list of an answer, and keeps it as the tail of the frame's link. -/
def receive {kind : Kind} (m : Memory α) (frame : Frame α kind) (a : kind.Answer α) :
    LazyList × Memory α :=
  ((frame.made m a).1, (frame.made m a).2.keep (frame.made m a).1 frame.address?)

end Frame

/-- Gives an answer to what waits for it. -/
def deliver {kind : Kind} (m : Memory α) : Stack α kind → kind.Answer α → Progress α
  | .bottom, list => .finished list m
  | .push frame next below, a =>
    .next ⟨next (frame.receive m a).1, below, (frame.receive m a).2⟩

/-- One step of the machine. -/
def step (s : State α) : Progress α :=
  match s.program.turn s.memory with
  | .answer a => deliver s.memory s.stack a
  | .fail fault => .fault fault s.memory
  | .go program m => .next ⟨program, s.stack, m⟩
  | .call program m frame next => .next ⟨program, .push frame next s.stack, m⟩

/-- At most the given number of steps. -/
def run : Nat → State α → Progress α
  | 0, s => .next s
  | n + 1, s =>
    match step s with
    | .next s' => run n s'
    | stop => stop

/-- Steps are taken one after another, so a run can be cut anywhere. -/
theorem run_add (m n : Nat) (s : State α) :
    run (m + n) s =
      match run m s with
      | .next s' => run n s'
      | stop => stop := by
  induction m generalizing s with
  | zero => simp [run]
  | succ m ih =>
    rw [Nat.add_right_comm]
    simp only [run]
    cases step s with
    | next s' => exact ih s'
    | _ => rfl

/-- A run that has come to something comes to the same with more steps. -/
theorem run_of_le {m n : Nat} (hle : m ≤ n) {s : State α} (hs : ∀ s', run m s ≠ .next s') :
    run n s = run m s := by
  obtain ⟨k, rfl⟩ := Nat.exists_eq_add_of_le hle
  rw [run_add]
  split
  · next s' h => exact absurd h (hs s')
  · rfl

end LazyGrammar.LazyList

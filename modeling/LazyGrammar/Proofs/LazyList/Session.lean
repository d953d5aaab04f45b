import Mathlib.Logic.Relation
import LazyGrammar.LazyList.Machine

/-!
# LazyGrammar.Proofs.LazyList.Session

**Sessions with lazy lists**: one request after another on the same memory, each a
program of any kind, each running until it answers or gives up.

Design points:

* What a turn can do to the memory is said once (`edit_of_go`, `call_of_turn`), and
  what a step can do is a relation with a case for each turn (`State.Moves`). No later
  proof looks at the requests of a program one by one.
* Memories only grow: heads stay, a known tail stays, a thunk that was taken does not
  come back (`Memory.Grows`). Keeping a tail is a growth because the link that it is
  kept for is taken, which is what `Stack.Holds` says of a stack.
* A history lists the moments before the present one, so what a step does (starting a
  computation, asking an iterator) is in the history when the step has been taken.
-/

namespace LazyGrammar.LazyList

variable {α : Type}

/-! ### What a turn does to the memory -/

/-- What a program may do to the memory by itself. -/
inductive Memory.Edit (m : Memory α) : Memory α → Prop
  | same : m.Edit m
  | note (notes : List String) : m.Edit (m.note notes)
  | cons (x : α) (list : LazyList) : m.Edit (m.add x (.ready list))
  | delay (x : α) (p : Program α .list) : m.Edit (m.add x (.pending (.code p)))

/-- What a call does to the memory, with the frame that waits for its answer. -/
inductive Memory.Call (m : Memory α) : {kind : Kind} → Memory α → Frame α kind → Prop
  | plain : m.Call m .plain
  | mapped (f : α → Program α .element) (address : Nat) : m.Call m (.mapped f address)
  | code {a : Nat} {p : Program α .list} (h : m.tail? a = some (.pending (.code p))) :
      m.Call (m.setTail a .taken) (.store a)
  | pull {a : Nat} {it : Iterator α} (h : m.tail? a = some (.pending (.pull it))) :
      m.Call (m.setTail a .taken) (.drawn it (some a))
  | first (source : Nat → Program α .item) :
      m.Call m.openIterator (.drawn ⟨m.iterators, source, 0⟩ none)

theorem edit_of_go {kind : Kind} {p q : Program α kind} {m m' : Memory α}
    (h : p.turn m = .go q m') : m.Edit m' := by
  unfold Program.turn at h
  split at h <;> try split at h
  all_goals cases h
  all_goals constructor

theorem call_of_turn {kind callee : Kind} {p : Program α kind} {q : Program α callee}
    {m m' : Memory α} {frame : Frame α callee} {next : LazyList → Program α kind}
    (h : p.turn m = .call q m' frame next) : m.Call m' frame := by
  unfold Program.turn at h
  split at h <;> try split at h
  all_goals cases h
  all_goals constructor
  all_goals assumption

/-- Only a program that is done answers. -/
theorem eq_done_of_answer {kind : Kind} {p : Program α kind} {m : Memory α}
    {a : kind.Answer α} (h : p.turn m = .answer a) : p = .done a := by
  unfold Program.turn at h
  split at h <;> try split at h
  all_goals cases h
  rfl

/-! ### What a step does -/

/-- A step of the machine to another state. -/
inductive State.Moves : State α → State α → Prop
  | answer {kind goal : Kind} {m : Memory α} (a : kind.Answer α) (frame : Frame α kind)
      (next : LazyList → Program α goal) (below : Stack α goal) :
      Moves ⟨.done a, .push frame next below, m⟩
        ⟨next (frame.receive m a).1, below, (frame.receive m a).2⟩
  | go {kind : Kind} {p q : Program α kind} {m m' : Memory α} (stack : Stack α kind)
      (h : p.turn m = .go q m') : Moves ⟨p, stack, m⟩ ⟨q, stack, m'⟩
  | call {kind callee : Kind} {p : Program α kind} {q : Program α callee}
      {m m' : Memory α} {frame : Frame α callee} {next : LazyList → Program α kind}
      (stack : Stack α kind) (h : p.turn m = .call q m' frame next) :
      Moves ⟨p, stack, m⟩ ⟨q, .push frame next stack, m'⟩

theorem State.moves_iff {s s' : State α} : s.Moves s' ↔ step s = .next s' := by
  constructor
  · rintro (⟨a, frame, next, below⟩ | ⟨stack, h⟩ | ⟨stack, h⟩)
    · rfl
    · simp only [step, h]
    · simp only [step, h]
  · intro h
    obtain ⟨p, stack, m⟩ := s
    simp only [step] at h
    split at h
    · next a ha =>
      cases stack with
      | bottom => cases h
      | push frame next below =>
        cases h
        rw [eq_done_of_answer ha]
        exact .answer a frame next below
    · cases h
    · next q m' hq =>
      cases h
      exact .go stack hq
    · next q m' frame next hq =>
      cases h
      exact .call stack hq

/-- A program has answered when nothing waits for it. -/
theorem step_eq_finished_iff {s : State α} {list : LazyList} {m : Memory α} :
    step s = .finished list m ↔ s = ⟨.done list, .bottom, m⟩ := by
  constructor
  · intro h
    obtain ⟨p, stack, m'⟩ := s
    simp only [step] at h
    split at h
    · next a ha =>
      cases stack with
      | bottom =>
        cases h
        rw [eq_done_of_answer ha]
      | push frame next below => cases h
    all_goals cases h
  · rintro rfl
    rfl

theorem turn_of_fault {s : State α} {fault : Fault} {m : Memory α}
    (h : step s = .fault fault m) : s.program.turn s.memory = .fail fault ∧ m = s.memory := by
  simp only [step] at h
  split at h
  · next a ha =>
    obtain ⟨p, stack, m'⟩ := s
    cases stack with
    | bottom => cases h
    | push frame next below => cases h
  · next f hf =>
    cases h
    exact ⟨hf, rfl⟩
  all_goals cases h

/-! ### Memories grow -/

theorem Memory.tail?_add_of_some {m : Memory α} {a : Nat} {t : TailState α}
    (ha : m.tail? a = some t) (x : α) (u : TailState α) : (m.add x u).tail? a = some t := by
  rw [tail?_add, if_neg (Nat.ne_of_lt (lt_fresh_of_tail? ha)), ha]

/-- A new link does not add to the tails of another kind. -/
theorem Memory.tail?_add_iff {m : Memory α} {a : Nat} {t u : TailState α} (hne : u ≠ t)
    (x : α) : (m.add x u).tail? a = some t ↔ m.tail? a = some t := by
  rw [tail?_add]
  split
  · next ha =>
    have hnone : m.tail? a ≠ some t := fun h => Nat.lt_irrefl _ (ha ▸ lt_fresh_of_tail? h)
    simp [hnone, hne]
  · exact .rfl

/-- What a tail can be later on. -/
inductive TailState.Later : TailState α → TailState α → Prop
  | same (t : TailState α) : t.Later t
  | taken (thunk : Thunk α) : Later (.pending thunk) .taken
  | computed (thunk : Thunk α) (list : LazyList) : Later (.pending thunk) (.ready list)
  | settled (list : LazyList) : Later .taken (.ready list)

theorem TailState.Later.trans {t u v : TailState α} (h : t.Later u) (h' : u.Later v) :
    t.Later v := by
  cases h <;> cases h' <;> constructor

/-- What a memory can be later on. -/
structure Memory.Grows (m m' : Memory α) : Prop where
  head : ∀ {a x}, m.head? a = some x → m'.head? a = some x
  tail : ∀ {a t}, m.tail? a = some t → ∃ t', m'.tail? a = some t' ∧ t.Later t'
  iterators : m.iterators ≤ m'.iterators

namespace Memory.Grows

variable {m m' m'' : Memory α}

protected theorem refl (m : Memory α) : m.Grows m :=
  ⟨id, fun h => ⟨_, h, .same _⟩, Nat.le_refl _⟩

protected theorem trans (h : m.Grows m') (h' : m'.Grows m'') : m.Grows m'' where
  head hx := h'.head (h.head hx)
  tail ht := by
    obtain ⟨u, hu, hl⟩ := h.tail ht
    obtain ⟨v, hv, hl'⟩ := h'.tail hu
    exact ⟨v, hv, hl.trans hl'⟩
  iterators := Nat.le_trans h.iterators h'.iterators

/-- A known tail stays. -/
theorem ready (h : m.Grows m') {a : Nat} {list : LazyList}
    (ha : m.tail? a = some (.ready list)) : m'.tail? a = some (.ready list) := by
  obtain ⟨t, ht, hl⟩ := h.tail ha
  cases hl
  exact ht

/-- A thunk that was taken does not come back. -/
theorem taken (h : m.Grows m') {a : Nat} (ha : m.tail? a = some .taken) :
    m'.tail? a = some .taken ∨ ∃ list, m'.tail? a = some (.ready list) := by
  obtain ⟨t, ht, hl⟩ := h.tail ha
  cases hl with
  | same => exact .inl ht
  | settled list => exact .inr ⟨list, ht⟩

theorem pending (h : m.Grows m') {a : Nat} {thunk : Thunk α}
    (ha : m.tail? a = some (.pending thunk)) :
    m'.tail? a = some (.pending thunk) ∨ m'.tail? a = some .taken
      ∨ ∃ list, m'.tail? a = some (.ready list) := by
  obtain ⟨t, ht, hl⟩ := h.tail ha
  cases hl with
  | same => exact .inl ht
  | taken => exact .inr (.inl ht)
  | computed _ list => exact .inr (.inr ⟨list, ht⟩)

theorem fresh (h : m.Grows m') : m.fresh ≤ m'.fresh := by
  refine Nat.le_of_not_lt fun hlt => ?_
  obtain ⟨t, ht⟩ := Option.isSome_iff_exists.1 (tail?_isSome_iff.2 hlt)
  obtain ⟨t', ht', -⟩ := h.tail ht
  exact Nat.lt_irrefl _ (lt_fresh_of_tail? ht')

theorem add (m : Memory α) (x : α) (t : TailState α) : m.Grows (m.add x t) where
  head {a y} hy := by
    have hlt : a < m.fresh := head?_isSome_iff.1 (by simp [hy])
    rw [head?_add, if_neg (Nat.ne_of_lt hlt), hy]
  tail hu := ⟨_, tail?_add_of_some hu x t, .same _⟩
  iterators := Nat.le_refl _

/-- Changing a tail is a growth if it is one for this tail. -/
theorem setTail {a : Nat} {t u : TailState α} (ht : m.tail? a = some t) (hl : t.Later u) :
    m.Grows (m.setTail a u) where
  head hx := by simpa using hx
  tail {b v} hv := by
    rw [tail?_setTail]
    split
    · next hb =>
      subst hb
      obtain rfl : t = v := by simpa [ht] using hv
      exact ⟨u, by simp [hv], hl⟩
    · exact ⟨v, hv, .same v⟩
  iterators := Nat.le_refl _

end Memory.Grows

theorem Memory.Edit.grows {m m' : Memory α} (h : m.Edit m') : m.Grows m' := by
  cases h with
  | same => exact .refl m
  | note notes => exact ⟨id, fun h => ⟨_, h, .same _⟩, Nat.le_refl _⟩
  | cons x list => exact .add m x _
  | delay x p => exact .add m x _

theorem Memory.Call.grows {kind : Kind} {m m' : Memory α} {frame : Frame α kind}
    (h : m.Call m' frame) : m.Grows m' := by
  cases h with
  | plain | mapped => exact .refl m
  | code h | pull h => exact .setTail h (.taken _)
  | first source => exact ⟨id, fun h => ⟨_, h, .same _⟩, Nat.le_succ _⟩

theorem Frame.made_grows {kind : Kind} (m : Memory α) (frame : Frame α kind)
    (a : kind.Answer α) : m.Grows (frame.made m a).2 := by
  cases frame with
  | plain | store => exact .refl m
  | mapped f address => exact .add m a _
  | drawn it address =>
    cases a with
    | none => exact .refl m
    | some x => exact .add m x _

/-! ### Links in progress -/

/-- The links whose tails are being computed, the one that was begun last in front. -/
def Stack.inProgress {kind : Kind} : Stack α kind → List Nat
  | .bottom => []
  | .push frame _ below => frame.address?.toList ++ below.inProgress

/-- The links in progress are taken, and each is in progress once. -/
structure Stack.Holds {kind : Kind} (stack : Stack α kind) (m : Memory α) : Prop where
  nodup : stack.inProgress.Nodup
  taken : ∀ {a}, a ∈ stack.inProgress → m.tail? a = some .taken

theorem Memory.Edit.tail? {m m' : Memory α} (h : m.Edit m') {a : Nat} {t : TailState α}
    (ha : m.tail? a = some t) : m'.tail? a = some t := by
  cases h with
  | same => exact ha
  | note => exact ha
  | cons | delay => exact tail?_add_of_some ha _ _

theorem Frame.made_tail? {kind : Kind} {m : Memory α} (frame : Frame α kind)
    (x : kind.Answer α) {a : Nat} {t : TailState α} (ha : m.tail? a = some t) :
    (frame.made m x).2.tail? a = some t := by
  cases frame with
  | plain | store => exact ha
  | mapped f address => exact Memory.tail?_add_of_some ha _ _
  | drawn it address =>
    cases x with
    | none => exact ha
    | some y => exact Memory.tail?_add_of_some ha _ _

theorem Frame.receive_grows {kind : Kind} {m : Memory α} (frame : Frame α kind)
    (htaken : ∀ a, frame.address? = some a → m.tail? a = some .taken) (x : kind.Answer α) :
    m.Grows (frame.receive m x).2 := by
  refine (frame.made_grows m x).trans ?_
  unfold Frame.receive Memory.keep
  split
  · next a ha => exact .setTail (frame.made_tail? x (htaken a ha)) (.settled _)
  · exact .refl _

/-- A call either computes a tail, which it takes, or leaves all tails as they are. -/
theorem Memory.Call.takes {kind : Kind} {m m' : Memory α} {frame : Frame α kind}
    (h : m.Call m' frame) :
    (frame.address? = none ∧ ∀ a, m'.tail? a = m.tail? a)
      ∨ ∃ a thunk, frame.address? = some a ∧ m.tail? a = some (.pending thunk)
        ∧ m' = m.setTail a .taken := by
  cases h with
  | plain | mapped | first => exact .inl ⟨rfl, fun _ => rfl⟩
  | code h | pull h => exact .inr ⟨_, _, rfl, h, rfl⟩

namespace Stack.Holds

variable {kind : Kind} {m m' : Memory α}

protected theorem bottom (m : Memory α) : (Stack.bottom : Stack α .list).Holds m :=
  ⟨.nil, fun h => absurd h (List.not_mem_nil)⟩

theorem edit {stack : Stack α kind} (hs : stack.Holds m) (h : m.Edit m') : stack.Holds m' :=
  ⟨hs.nodup, fun ha => h.tail? (hs.taken ha)⟩

theorem call {callee : Kind} {stack : Stack α kind} (hs : stack.Holds m)
    {frame : Frame α callee} (h : m.Call m' frame) (next : LazyList → Program α kind) :
    (stack.push frame next).Holds m' := by
  obtain ⟨hnone, hsame⟩ | ⟨a, thunk, hsome, ha, rfl⟩ := h.takes
  · refine ⟨by simpa [inProgress, hnone] using hs.nodup, fun hb => ?_⟩
    rw [hsame]
    exact hs.taken (by simpa [inProgress, hnone] using hb)
  · have hnot : a ∉ stack.inProgress := fun hmem => by
      simp [hs.taken hmem] at ha
    refine ⟨by simp [inProgress, hsome, hnot, hs.nodup], fun {b} hb => ?_⟩
    obtain rfl | hb : b = a ∨ b ∈ stack.inProgress := by simpa [inProgress, hsome] using hb
    · exact Memory.tail?_setTail_of_eq ha _
    · have hne : b ≠ a := fun h => hnot (h ▸ hb)
      rw [Memory.tail?_setTail_of_ne hne, hs.taken hb]

theorem grows_receive {goal : Kind} {frame : Frame α kind} {next : LazyList → Program α goal}
    {below : Stack α goal} (hs : (below.push frame next).Holds m) (x : kind.Answer α) :
    m.Grows (frame.receive m x).2 :=
  frame.receive_grows (fun _ ha => hs.taken (List.mem_append_left _ (by simp [ha]))) x

theorem receive {goal : Kind} {frame : Frame α kind} {next : LazyList → Program α goal}
    {below : Stack α goal} (hs : (below.push frame next).Holds m) (x : kind.Answer α) :
    below.Holds (frame.receive m x).2 := by
  have hnodup := List.nodup_append.1 hs.nodup
  refine ⟨hnodup.2.1, fun {b} hb => ?_⟩
  have hmade := frame.made_tail? x (hs.taken (List.mem_append_right _ hb))
  unfold Frame.receive Memory.keep
  split
  · next a ha =>
    have hne : b ≠ a := fun h => hnodup.2.2 a (by simp [ha]) b hb h.symm
    rw [Memory.tail?_setTail_of_ne hne, hmade]
  · exact hmade

end Stack.Holds

/-- A step keeps the links in progress taken, and the memory grows. -/
theorem State.Moves.holds {s s' : State α} (h : s.Moves s') (hs : s.stack.Holds s.memory) :
    s'.stack.Holds s'.memory ∧ s.memory.Grows s'.memory := by
  cases h with
  | answer a frame next below => exact ⟨hs.receive a, hs.grows_receive a⟩
  | go stack h => exact ⟨hs.edit (edit_of_go h), (edit_of_go h).grows⟩
  | call stack h => exact ⟨hs.call (call_of_turn h) _, (call_of_turn h).grows⟩

/-! ### What is taken -/

theorem Memory.Edit.taken_iff {m m' : Memory α} (h : m.Edit m') (a : Nat) :
    m'.tail? a = some .taken ↔ m.tail? a = some .taken := by
  cases h with
  | same | note => exact .rfl
  | cons | delay => exact Memory.tail?_add_iff (by simp) _

theorem Memory.Call.taken_iff {kind : Kind} {m m' : Memory α} {frame : Frame α kind}
    (h : m.Call m' frame) (a : Nat) :
    m'.tail? a = some .taken ↔ m.tail? a = some .taken ∨ frame.address? = some a := by
  obtain ⟨hnone, hsame⟩ | ⟨b, thunk, hsome, hb, rfl⟩ := h.takes
  · simp [hnone, hsame]
  · by_cases hab : a = b
    · simp [Memory.tail?_setTail, hab, hb, hsome]
    · simp [Memory.tail?_setTail, hab, hsome, Ne.symm hab]

theorem Frame.taken_made_iff {kind : Kind} (m : Memory α) (frame : Frame α kind)
    (x : kind.Answer α) (a : Nat) :
    (frame.made m x).2.tail? a = some .taken ↔ m.tail? a = some .taken := by
  cases frame with
  | plain | store => exact .rfl
  | mapped f address => exact Memory.tail?_add_iff (by simp) _
  | drawn it address =>
    cases x with
    | none => exact .rfl
    | some y => exact Memory.tail?_add_iff (by simp) _

theorem Frame.taken_receive_iff {kind : Kind} (m : Memory α) (frame : Frame α kind)
    (x : kind.Answer α) (a : Nat) :
    (frame.receive m x).2.tail? a = some .taken
      ↔ m.tail? a = some .taken ∧ frame.address? ≠ some a := by
  rw [← frame.taken_made_iff m x a]
  unfold Frame.receive Memory.keep
  split
  · next b hb =>
    by_cases hab : a = b
    · subst hab
      simp only [Memory.tail?_setTail, if_pos, hb, ne_eq, not_true, and_false, iff_false]
      cases (frame.made m x).2.tail? a <;> simp
    · simp [Memory.tail?_setTail, hab, hb, Ne.symm hab]
  · next hb => simp [hb]

/-! ### Sessions -/

/-- A session is at rest between two requests, or at work on one. -/
inductive Session (α : Type)
  | rest (m : Memory α)
  | work (s : State α)

namespace Session

def memory : Session α → Memory α
  | .rest m => m
  | .work s => s.memory

@[simp] theorem memory_rest (m : Memory α) : (rest m).memory = m := rfl

@[simp] theorem memory_work (s : State α) : (work s).memory = s.memory := rfl

/-- The links whose tails are being computed. -/
def inProgress : Session α → List Nat
  | .rest _ => []
  | .work s => s.stack.inProgress

/-- What may come next. At rest any request may be made. -/
inductive Next : Session α → Session α → Prop
  | request (m : Memory α) (p : Program α .list) : Next (.rest m) (.work ⟨p, .bottom, m⟩)
  | move {s s' : State α} (h : s.Moves s') : Next (.work s) (.work s')
  | finish (list : LazyList) (m : Memory α) : Next (.work ⟨.done list, .bottom, m⟩) (.rest m)
  | fail {s : State α} {fault : Fault} (h : s.program.turn s.memory = .fail fault) :
      Next (.work s) (.rest s.memory)

/-- What comes after any number of steps. -/
abbrev Reaches : Session α → Session α → Prop := Relation.ReflTransGen Next

/-- What is in progress is taken, each link once. -/
def Sound : Session α → Prop
  | .rest _ => True
  | .work s => s.stack.Holds s.memory

theorem Sound.taken {S : Session α} (hS : S.Sound) {a : Nat} (ha : a ∈ S.inProgress) :
    S.memory.tail? a = some .taken := by
  cases S with
  | rest m => exact absurd ha List.not_mem_nil
  | work s => exact Stack.Holds.taken hS ha

theorem Next.sound {S T : Session α} (h : S.Next T) (hS : S.Sound) :
    T.Sound ∧ S.memory.Grows T.memory := by
  cases h with
  | request m p => exact ⟨.bottom m, .refl m⟩
  | move h => exact h.holds hS
  | finish list m => exact ⟨trivial, .refl m⟩
  | fail h => exact ⟨trivial, .refl _⟩

theorem Reaches.sound {S T : Session α} (h : S.Reaches T) (hS : S.Sound) :
    T.Sound ∧ S.memory.Grows T.memory := by
  induction h with
  | refl => exact ⟨hS, .refl _⟩
  | tail _ hnext ih =>
    obtain ⟨hsound, hgrows⟩ := hnext.sound ih.1
    exact ⟨hsound, ih.2.trans hgrows⟩

/-- A step within a request is a step of its session. -/
theorem reaches_of_moves {s s' : State α} (h : Relation.ReflTransGen State.Moves s s') :
    Reaches (.work s) (.work s') := by
  induction h with
  | refl => exact .refl
  | tail _ hmove ih => exact ih.tail (.move hmove)

/-- A link that is taken with nobody at work on it stays so. -/
theorem Next.spoiled {S T : Session α} (h : S.Next T) {a : Nat}
    (ha : S.memory.tail? a = some .taken) (hnot : a ∉ S.inProgress) :
    T.memory.tail? a = some .taken ∧ a ∉ T.inProgress := by
  cases h with
  | request | finish | fail => exact ⟨ha, List.not_mem_nil⟩
  | move h =>
    cases h with
    | answer x frame next below =>
      have hne : frame.address? ≠ some a := fun h =>
        hnot (List.mem_append_left _ (by simp [h]))
      exact ⟨(frame.taken_receive_iff _ x a).2 ⟨ha, hne⟩,
        fun h => hnot (List.mem_append_right _ h)⟩
    | go stack h => exact ⟨((edit_of_go h).taken_iff a).2 ha, hnot⟩
    | @call _ _ _ _ m _ frame _ stack h =>
      have hc := call_of_turn h
      refine ⟨(hc.taken_iff a).2 (.inl ha), fun hmem => ?_⟩
      obtain hmem | hmem := List.mem_append.1 hmem
      · obtain ⟨hnone, -⟩ | ⟨b, thunk, hb, hpending, -⟩ := hc.takes
        · simp [hnone] at hmem
        · obtain rfl : a = b := by simpa [hb, eq_comm] using hmem
          have htaken : m.tail? a = some .taken := ha
          simp [hpending] at htaken
      · exact hnot hmem

theorem Reaches.spoiled {S T : Session α} (h : S.Reaches T) {a : Nat}
    (ha : S.memory.tail? a = some .taken) (hnot : a ∉ S.inProgress) :
    T.memory.tail? a = some .taken ∧ a ∉ T.inProgress := by
  induction h with
  | refl => exact ⟨ha, hnot⟩
  | tail _ hnext ih => exact hnext.spoiled ih.1 ih.2

/-- The moments of a session from a given one, and the present one after them. -/
inductive Course (start : Session α) : List (Session α) → Session α → Prop
  | here : Course start [] start
  | next {past : List (Session α)} {S T : Session α} (h : Course start past S)
      (hnext : S.Next T) : Course start (past ++ [S]) T

/-- The moments of a session from its very start. -/
abbrev History : List (Session α) → Session α → Prop := Course (.rest .empty)

theorem Course.sound {start S : Session α} {past : List (Session α)} (h : Course start past S)
    (hstart : start.Sound) : S.Sound := by
  induction h with
  | here => exact hstart
  | next _ hnext ih => exact (hnext.sound ih).1

/-- Every moment of the past reaches the present. -/
theorem Course.reaches {start T : Session α} {past : List (Session α)}
    (h : Course start past T) (hstart : start.Sound) {S : Session α} (hS : S ∈ past) :
    S.Sound ∧ S.Reaches T := by
  induction h with
  | here => exact absurd hS List.not_mem_nil
  | next h hnext ih =>
    obtain hS | rfl := by simpa using hS
    · exact ⟨(ih hS).1, (ih hS).2.tail hnext⟩
    · exact ⟨h.sound hstart, .single hnext⟩

/-! ### Requests as the machine runs them -/

theorem moves_of_run {n : Nat} {s s' : State α} (h : run n s = .next s') :
    Relation.ReflTransGen State.Moves s s' := by
  induction n generalizing s with
  | zero =>
    cases h
    exact .refl
  | succ n ih =>
    simp only [run] at h
    cases hs : step s with
    | next s₁ =>
      simp only [hs] at h
      exact (ih h).head (State.moves_iff.2 hs)
    | finished list m => simp [hs] at h
    | fault fault m => simp [hs] at h

/-- The moments of a request, in at most the given number of steps. -/
def moments : Nat → State α → List (Session α)
  | 0, _ => []
  | n + 1, s =>
    .work s ::
      match step s with
      | .next s' => moments n s'
      | _ => []

/-- A request that the machine runs to its end is a part of a session, also if it
fails. -/
theorem Course.moments {start : Session α} {past : List (Session α)} {n : Nat} {s : State α}
    {m : Memory α} (h : Course start past (.work s))
    (hrun : (∃ list, run n s = .finished list m) ∨ ∃ fault, run n s = .fault fault m) :
    Course start (past ++ moments n s) (.rest m) := by
  induction n generalizing past s with
  | zero => simp [run] at hrun
  | succ n ih =>
    simp only [run, Session.moments] at hrun ⊢
    cases hs : step s with
    | next s' =>
      simp only [hs] at hrun ⊢
      simpa using ih (h.next (.move (State.moves_iff.2 hs))) hrun
    | finished list m' =>
      obtain rfl := step_eq_finished_iff.1 hs
      obtain rfl : m' = m := by simpa [hs] using hrun
      simpa [hs] using h.next (.finish list m')
    | fault fault m' =>
      obtain ⟨hturn, rfl⟩ := turn_of_fault hs
      obtain rfl : s.memory = m := by simpa [hs] using hrun
      simpa [hs] using h.next (.fail hturn)

end Session

end LazyGrammar.LazyList

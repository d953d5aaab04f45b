import LazyGrammar.Proofs.LazyList.Session

/-!
# LazyGrammar.Proofs.LazyList.Memoization

**Nothing is computed twice.** In any session each tail is computed at most once, and
what was computed never changes. The iterator behind a lazy list is asked in order,
once for the list and once for each of its tails, and no more after its end.

Design points:

* What a step does is read off its turn: the link whose tail it begins to compute
  (`begins`), the iterator that it asks (`asks`), what an iterator gives (`gives`) and
  the list that is made of its first answer (`opens`).
* The right to ask an iterator is in one place at a time: with the link that holds it,
  with the call that asks it, or nowhere after its end. `Account` says which, together
  with all that was asked and given so far; a step moves the right or leaves it alone.
-/

namespace LazyGrammar.LazyList

variable {α : Type}

/-! ### What a step begins, asks and gives -/

/-- The calls of the iterator with a name. -/
def Frame.held {kind : Kind} (name : Nat) : Frame α kind → List (Iterator α × Option Nat)
  | .drawn it address => if it.name = name then [(it, address)] else []
  | .plain | .store _ | .mapped _ _ => []

/-- What the iterator with a name gives. -/
def Frame.gives {kind : Kind} (name : Nat) : Frame α kind → kind.Answer α → Option (Option α)
  | .drawn it _, item => if it.name = name then some item else none
  | .plain, _ | .store _, _ | .mapped _ _, _ => none

/-- The list made of the first answer of the iterator with a name. -/
def Frame.opens {kind : Kind} (name : Nat) (m : Memory α) :
    Frame α kind → kind.Answer α → Option LazyList
  | .drawn it none, item =>
    if it.name = name then some ((Frame.drawn it none).made m item).1 else none
  | .drawn _ (some _), _ | .plain, _ | .store _, _ | .mapped _ _, _ => none

def Stack.held {kind : Kind} (name : Nat) : Stack α kind → List (Iterator α × Option Nat)
  | .bottom => []
  | .push frame _ below => frame.held name ++ below.held name

namespace Session

/-- The calls of the iterator with a name that have not come back. -/
def held (name : Nat) : Session α → List (Iterator α × Option Nat)
  | .rest _ => []
  | .work s => s.stack.held name

@[simp] theorem held_rest (name : Nat) (m : Memory α) : (rest m).held name = [] := rfl

@[simp] theorem held_work (name : Nat) (s : State α) :
    (work s).held name = s.stack.held name := rfl

/-- The link whose tail the next step begins to compute. -/
def begins : Session α → Option Nat
  | .rest _ => none
  | .work s =>
    match s.program.turn s.memory with
    | .call _ _ frame _ => frame.address?
    | _ => none

/-- How often the iterator with a name was asked before, if the next step asks it. -/
def asks (name : Nat) : Session α → Option Nat
  | .rest _ => none
  | .work s =>
    match s.program.turn s.memory with
    | .call _ _ frame _ => (frame.held name).head?.map (·.1.asked)
    | _ => none

/-- What the iterator with a name gives in the next step. -/
def gives (name : Nat) : Session α → Option (Option α)
  | .rest _ => none
  | .work s =>
    match s.program.turn s.memory, s.stack with
    | .answer a, .push frame _ _ => frame.gives name a
    | _, _ => none

/-- The lazy list that the next step makes of the iterator with a name. -/
def opens (name : Nat) : Session α → Option LazyList
  | .rest _ => none
  | .work s =>
    match s.program.turn s.memory, s.stack with
    | .answer a, .push frame _ _ => frame.opens name s.memory a
    | _, _ => none

end Session

/-! ### The list of an iterator -/

/-- The links of a list along its known tails, against what an iterator gave: `given`
are the heads in order, with the end if the list has come to it, `computed` are the
links whose tails are known, and `last` is the link after them. -/
inductive Chain (m : Memory α) :
    LazyList → List (Option α) → List Nat → Option Nat → Prop
  | ended : Chain m .nil [none] [] none
  | last {a : Nat} {x : α} (head : m.head? a = some x) : Chain m (.link a) [some x] [] (some a)
  | more {a : Nat} {x : α} {list : LazyList} {given : List (Option α)} {computed : List Nat}
      {last : Option Nat} (head : m.head? a = some x)
      (tail : m.tail? a = some (.ready list)) (later : ∀ b, list = .link b → a < b)
      (rest : Chain m list given computed last) :
      Chain m (.link a) (some x :: given) (a :: computed) last

namespace Chain

variable {m m' : Memory α} {list : LazyList} {given : List (Option α)}
  {computed : List Nat} {last : Option Nat}

theorem grows (h : Chain m list given computed last) (hm : m.Grows m') :
    Chain m' list given computed last := by
  induction h with
  | ended => exact .ended
  | last head => exact .last (hm.head head)
  | more head tail later _ ih => exact .more (hm.head head) (hm.ready tail) later ih

theorem length_given (h : Chain m list given computed last) :
    given.length = 1 + computed.length := by
  induction h with
  | ended | last => rfl
  | more _ _ _ _ ih => simp only [List.length_cons, ih]; omega

/-- A link before the list is before all its links. -/
theorem lt_of_mem (h : Chain m list given computed last) {a b : Nat}
    (hbefore : ∀ c, list = .link c → a < c) (hb : b ∈ computed) : a < b := by
  induction h with
  | ended | last => cases hb
  | more _ _ later _ ih =>
    have hlt := hbefore _ rfl
    obtain rfl | hb := List.mem_cons.1 hb
    · exact hlt
    · exact ih (fun c hc => Nat.lt_trans hlt (later c hc)) hb

theorem nodup (h : Chain m list given computed last) : computed.Nodup := by
  induction h with
  | ended | last => exact .nil
  | more _ _ later rest ih =>
    exact List.nodup_cons.2 ⟨fun hmem => Nat.lt_irrefl _ (rest.lt_of_mem later hmem), ih⟩

/-- A list that was given its end has no link left to compute. -/
theorem last_eq_none (h : Chain m list given computed last) (hnone : none ∈ given) :
    last = none := by
  induction h with
  | ended => rfl
  | last => simp at hnone
  | more _ _ _ _ ih => exact ih (by simpa using hnone)

/-- The tail of the last link is computed: it is the end. -/
theorem close {a : Nat} (h : Chain m list given computed (some a)) (hm : m.Grows m')
    (ha : m'.tail? a = some (.ready .nil)) :
    Chain m' list (given ++ [none]) (computed ++ [a]) none := by
  generalize hlast : some a = last at h
  induction h with
  | ended => cases hlast
  | last head =>
    cases hlast
    exact .more (hm.head head) ha (fun _ h => by cases h) .ended
  | more head tail later _ ih => exact .more (hm.head head) (hm.ready tail) later (ih hlast)

/-- The tail of the last link is computed: it is a new link. -/
theorem extend {a b : Nat} {x : α} (h : Chain m list given computed (some a))
    (hm : m.Grows m') (ha : m'.tail? a = some (.ready (.link b))) (hb : m'.head? b = some x)
    (hlt : a < b) : Chain m' list (given ++ [some x]) (computed ++ [a]) (some b) := by
  generalize hlast : some a = last at h
  induction h with
  | ended => cases hlast
  | last head =>
    cases hlast
    exact .more (hm.head head) ha (fun _ h => by cases h; exact hlt) (.last hb)
  | more head tail later _ ih => exact .more (hm.head head) (hm.ready tail) later (ih hlast)

end Chain

/-! ### Who may ask an iterator -/

/-- No link holds the iterator with a name. -/
def Memory.Free (m : Memory α) (name : Nat) : Prop :=
  ∀ ⦃a it⦄, m.tail? a = some (.pending (.pull it)) → it.name ≠ name

/-- Everything so far about the iterator with a name: what it was asked, what it gave,
the list that was made of it, and who may ask it next. -/
inductive Account (name : Nat) (m : Memory α) (held : List (Iterator α × Option Nat)) :
    List Nat → List (Option α) → List LazyList → Prop
  /-- There is no such iterator yet. -/
  | unborn (small : m.iterators ≤ name) (free : m.Free name) (none : held = []) :
      Account name m held [] [] []
  /-- It is asked for the first time. -/
  | first {it : Iterator α} (born : name < m.iterators) (free : m.Free name)
      (one : held = [(it, none)]) (asked : it.asked = 0) : Account name m held [0] [] []
  /-- The last link of its list holds it. -/
  | waiting {list : LazyList} {given : List (Option α)} {computed : List Nat} {a : Nat}
      {it : Iterator α} (born : name < m.iterators)
      (chain : Chain m list given computed (some a))
      (holds : m.tail? a = some (.pending (.pull it))) (named : it.name = name)
      (only : ∀ ⦃b it'⦄, m.tail? b = some (.pending (.pull it')) → it'.name = name → b = a)
      (none : held = []) (asked : it.asked = given.length) :
      Account name m held (List.range given.length) given [list]
  /-- It is asked for the tail of the last link of its list. -/
  | asked {list : LazyList} {given : List (Option α)} {computed : List Nat} {a : Nat}
      {it : Iterator α} (born : name < m.iterators)
      (chain : Chain m list given computed (some a)) (free : m.Free name)
      (one : held = [(it, some a)]) (asked : it.asked = given.length) :
      Account name m held (List.range (given.length + 1)) given [list]
  /-- Its list has come to the end. -/
  | ended {list : LazyList} {given : List (Option α)} {computed : List Nat}
      (born : name < m.iterators) (chain : Chain m list given computed none)
      (free : m.Free name) (none : held = []) :
      Account name m held (List.range given.length) given [list]

/-- Nothing happens to the iterator with a name. -/
structure Memory.Quiet (name : Nat) (m m' : Memory α) : Prop where
  grows : m.Grows m'
  pull : ∀ ⦃a it⦄, it.name = name →
    (m'.tail? a = some (.pending (.pull it)) ↔ m.tail? a = some (.pending (.pull it)))
  unborn : m.iterators ≤ name → m'.iterators ≤ name

namespace Memory.Quiet

variable {name : Nat} {m m' m'' : Memory α}

protected theorem refl (m : Memory α) : m.Quiet name m :=
  ⟨.refl m, fun _ _ _ => .rfl, id⟩

protected theorem trans (h : m.Quiet name m') (h' : m'.Quiet name m'') : m.Quiet name m'' :=
  ⟨h.grows.trans h'.grows, fun _ _ hname => (h'.pull hname).trans (h.pull hname),
    h'.unborn ∘ h.unborn⟩

theorem free (h : m.Quiet name m') (hfree : m.Free name) : m'.Free name :=
  fun _ _ ha hname => hfree ((h.pull hname).1 ha) hname

theorem add (m : Memory α) (x : α) {t : TailState α}
    (ht : ∀ it : Iterator α, it.name = name → t ≠ .pending (.pull it)) :
    m.Quiet name (m.add x t) where
  grows := .add m x t
  pull _ it hname := tail?_add_iff (ht it hname) x
  unborn := id

theorem setTail {a : Nat} {t u : TailState α} (ha : m.tail? a = some t) (hl : t.Later u)
    (ht : ∀ it : Iterator α, it.name = name → t ≠ .pending (.pull it))
    (hu : ∀ it : Iterator α, it.name = name → u ≠ .pending (.pull it)) :
    m.Quiet name (m.setTail a u) where
  grows := .setTail ha hl
  pull b it hname := by
    rw [tail?_setTail]
    split
    · next hb => simp [hb, ha, ht it hname, hu it hname]
    · exact .rfl
  unborn := id

end Memory.Quiet

theorem Memory.Edit.quiet {m m' : Memory α} (h : m.Edit m') (name : Nat) :
    m.Quiet name m' := by
  cases h with
  | same => exact .refl m
  | note notes => exact ⟨(Edit.note notes).grows, fun _ _ _ => .rfl, id⟩
  | cons x list => exact .add m x (by simp)
  | delay x p => exact .add m x (by simp)

theorem Memory.Call.quiet {kind : Kind} {m m' : Memory α} {frame : Frame α kind}
    (h : m.Call m' frame) {name : Nat} (hheld : frame.held name = []) : m.Quiet name m' := by
  have hgrows := h.grows
  cases h with
  | plain | mapped => exact .refl m
  | code ha => exact .setTail ha (.taken _) (by simp) (by simp)
  | @pull a it ha =>
    have hne : it.name ≠ name := by simpa [Frame.held] using hheld
    refine .setTail ha (.taken _) (fun it' hname heq => hne ?_) (by simp)
    cases heq
    exact hname
  | first source =>
    have hne : m.iterators ≠ name := by simpa [Frame.held] using hheld
    exact ⟨hgrows, fun _ _ _ => .rfl, fun hle => Nat.lt_of_le_of_ne hle hne⟩

theorem Frame.quiet_made {kind : Kind} {frame : Frame α kind} {name : Nat}
    (hheld : frame.held name = []) (m : Memory α) (x : kind.Answer α) :
    m.Quiet name (frame.made m x).2 := by
  cases frame with
  | plain | store => exact .refl m
  | mapped f address => exact .add m x (by simp)
  | drawn it address =>
    have hne : it.name ≠ name := by simpa [Frame.held] using hheld
    cases x with
    | none => exact .refl m
    | some y =>
      refine .add m y fun it' hname heq => hne ?_
      cases heq
      exact hname

theorem Stack.Holds.quiet_receive {kind goal : Kind} {m : Memory α} {frame : Frame α kind}
    {next : LazyList → Program α goal} {below : Stack α goal}
    (hs : (below.push frame next).Holds m) {name : Nat} (hheld : frame.held name = [])
    (x : kind.Answer α) : m.Quiet name (frame.receive m x).2 := by
  refine (frame.quiet_made hheld m x).trans ?_
  unfold Frame.receive Memory.keep
  split
  · next a ha =>
    have htaken := hs.taken (by simp [inProgress, ha] : a ∈ _)
    exact .setTail (frame.made_tail? x htaken) (.settled _) (by simp) (by simp)
  · exact .refl _

namespace Account

variable {name : Nat} {m m' : Memory α} {held : List (Iterator α × Option Nat)}
  {asks : List Nat} {given : List (Option α)} {lists : List LazyList}

theorem quiet (h : Account name m held asks given lists) (hq : m.Quiet name m') :
    Account name m' held asks given lists := by
  have born (hb : name < m.iterators) := Nat.lt_of_lt_of_le hb hq.grows.iterators
  cases h with
  | unborn small free none => exact .unborn (hq.unborn small) (hq.free free) none
  | first hb free one asked => exact .first (born hb) (hq.free free) one asked
  | waiting hb chain holds named only none asked =>
    exact .waiting (born hb) (chain.grows hq.grows) ((hq.pull named).2 holds) named
      (fun _ _ hpull hname => only ((hq.pull hname).1 hpull) hname) none asked
  | asked hb chain free one asked =>
    exact .asked (born hb) (chain.grows hq.grows) (hq.free free) one asked
  | ended hb chain free none =>
    exact .ended (born hb) (chain.grows hq.grows) (hq.free free) none

/-- A call asks the iterator if it has the right to. -/
theorem call (h : Account name m held asks given lists) {kind : Kind} {frame : Frame α kind}
    (hc : m.Call m' frame) :
    Account name m' (frame.held name ++ held)
      (asks ++ ((frame.held name).head?.map (·.1.asked)).toList) given lists := by
  by_cases hheld : frame.held name = []
  · simpa [hheld] using h.quiet (hc.quiet hheld)
  have hgrows := hc.grows
  cases hc with
  | plain | mapped | code => exact absurd rfl hheld
  | @pull a it ha =>
    obtain rfl : it.name = name := by simpa [Frame.held] using hheld
    simp only [Frame.held, if_pos]
    cases h with
    | unborn _ free _ | first _ free _ _ | asked _ _ free _ _ | ended _ _ free _ =>
      exact absurd rfl (free ha)
    | @waiting list given computed a' it' born chain holds named only none asked =>
      obtain rfl : a = a' := only ha rfl
      obtain rfl : it = it' := by simpa [ha] using holds
      have hfree : (m.setTail a .taken).Free it.name := fun b it' hb hname => by
        rw [Memory.tail?_setTail] at hb
        split at hb
        · next hba => simp [hba, ha] at hb
        · next hba => exact hba (only hb hname)
      have hasked : Account it.name (m.setTail a .taken) [(it, some a)]
          (List.range (given.length + 1)) given [list] :=
        .asked born (chain.grows hgrows) hfree rfl asked
      simpa [none, asked, List.range_succ] using hasked
  | first source =>
    obtain rfl : m.iterators = name := by simpa [Frame.held] using hheld
    simp only [Frame.held, if_pos]
    cases h with
    | unborn _ free none =>
      have hfirst : Account m.iterators m.openIterator [(⟨m.iterators, source, 0⟩, Option.none)]
          [0] [] [] := .first (Nat.lt_succ_self m.iterators) free rfl rfl
      simpa [none] using hfirst
    | first born | waiting born | asked born | ended born =>
      exact absurd born (Nat.lt_irrefl _)

/-- The first answer of an iterator makes its list. -/
theorem receive_first {it : Iterator α} (born : it.name < m.iterators) (free : m.Free it.name)
    (asked : it.asked = 0) (item : Option α) :
    Account it.name ((Frame.drawn it none).made m item).2 [] [0] [item]
      [((Frame.drawn it none).made m item).1] := by
  cases item with
  | none => exact .ended born .ended free rfl
  | some y =>
    let m' := m.add y (.pending (.pull it.advance))
    have hhead : m'.head? m.fresh = some y := by simp [m', Memory.head?_add]
    have hpull : m'.tail? m.fresh = some (.pending (.pull it.advance)) := by
      simp [m', Memory.tail?_add]
    have honly : ∀ ⦃b it'⦄, m'.tail? b = some (.pending (.pull it')) → it'.name = it.name →
        b = m.fresh := fun b it' hb hname => by
      rw [Memory.tail?_add] at hb
      split at hb
      · assumption
      · exact absurd hname (free hb)
    have hasked : it.advance.asked = [some y].length := by simp [asked]
    exact (.waiting born (.last hhead) hpull rfl honly rfl hasked :
      Account it.name m' [] (List.range [some y].length) [some y] [.link m.fresh])

/-- A further answer makes the next link of the list, or ends it. -/
theorem receive_next {it : Iterator α} {list : LazyList} {computed : List Nat} {a : Nat}
    (born : it.name < m.iterators) (chain : Chain m list given computed (some a))
    (free : m.Free it.name) (asked : it.asked = given.length)
    (htaken : m.tail? a = some .taken) (item : Option α) :
    Account it.name ((Frame.drawn it (some a)).receive m item).2 []
      (List.range (given.length + 1)) (given ++ [item]) [list] := by
  have hlt := Memory.lt_fresh_of_tail? htaken
  have hlength : given.length + 1 = (given ++ [item]).length := by simp
  rw [hlength]
  cases item with
  | none =>
    have hready : (m.setTail a (.ready .nil)).tail? a = some (.ready .nil) :=
      Memory.tail?_setTail_of_eq htaken _
    have hfree : (m.setTail a (.ready .nil)).Free it.name := fun b it' hb => by
      rw [Memory.tail?_setTail] at hb
      split at hb
      · next hba => simp [hba, htaken] at hb
      · exact free hb
    exact .ended born (chain.close (.setTail htaken (.settled _)) hready) hfree rfl
  | some y =>
    let m₁ := m.add y (.pending (.pull it.advance))
    have hmade : m₁.tail? a = some .taken := by
      simp [m₁, Memory.tail?_add, htaken, Nat.ne_of_lt hlt]
    let m₂ := m₁.setTail a (.ready (.link m.fresh))
    have hgrows : m.Grows m₂ := (Memory.Grows.add m y _).trans (.setTail hmade (.settled _))
    have hready : m₂.tail? a = some (.ready (.link m.fresh)) :=
      Memory.tail?_setTail_of_eq hmade _
    have hhead : m₂.head? m.fresh = some y := by simp [m₂, m₁, Memory.head?_add]
    have hpull : m₂.tail? m.fresh = some (.pending (.pull it.advance)) := by
      simp [m₂, m₁, Memory.tail?_setTail, Memory.tail?_add, Nat.ne_of_gt hlt]
    have honly : ∀ ⦃b it'⦄, m₂.tail? b = some (.pending (.pull it')) → it'.name = it.name →
        b = m.fresh := fun b it' hb hname => by
      rw [Memory.tail?_setTail] at hb
      split at hb
      · next hba => simp [hba, hmade] at hb
      · rw [Memory.tail?_add] at hb
        split at hb
        · assumption
        · exact absurd hname (free hb)
    exact .waiting born (chain.extend hgrows hready hhead hlt) hpull rfl honly rfl
      (by simp [asked])

/-- The right to ask goes to the link that is made of what the iterator gave. -/
theorem receive {kind goal : Kind} {frame : Frame α kind} {next : LazyList → Program α goal}
    {below : Stack α goal} (h : Account name m (frame.held name ++ held) asks given lists)
    (hs : (below.push frame next).Holds m) (x : kind.Answer α) :
    Account name (frame.receive m x).2 held asks (given ++ (frame.gives name x).toList)
      (lists ++ (frame.opens name m x).toList) := by
  by_cases hheld : frame.held name = []
  · have hgives : frame.gives name x = none := by
      cases frame <;> simp_all [Frame.held, Frame.gives]
    have hopens : frame.opens name m x = none := by
      cases frame with
      | drawn it address => cases address <;> simp_all [Frame.held, Frame.opens]
      | _ => rfl
    simpa [hheld, hgives, hopens] using h.quiet (hs.quiet_receive hheld x)
  cases frame with
  | plain | store | mapped => exact absurd rfl hheld
  | drawn it address =>
    obtain rfl : it.name = name := by simpa [Frame.held] using hheld
    simp only [Frame.held, if_pos, List.singleton_append] at h
    -- The call that comes back is the one with the right to ask.
    cases h with
    | unborn _ _ none | waiting _ _ _ _ _ none _ | ended _ _ _ none => cases none
    | first born free one asked =>
      cases one
      simpa [Frame.gives, Frame.opens, Frame.receive, Frame.address?, Memory.keep] using
        receive_first born free asked x
    | @asked list given computed a _ born chain free one asked =>
      cases one
      have htaken := hs.taken (by simp [Stack.inProgress, Frame.address?] : a ∈ _)
      simpa [Frame.gives, Frame.opens] using receive_next born chain free asked htaken x

end Account

namespace Session

/-! ### Sessions without a fault -/

/-- The fault with which the next step gives up. -/
def fault? : Session α → Option Fault
  | .rest _ => none
  | .work s =>
    match s.program.turn s.memory with
    | .fail fault => some fault
    | _ => none

theorem Next.account {S T : Session α} (h : S.Next T) (hS : S.Sound) (hcalm : S.fault? = none)
    {name : Nat} {asked : List Nat} {given : List (Option α)} {lists : List LazyList}
    (hacc : Account name S.memory (S.held name) asked given lists) :
    Account name T.memory (T.held name) (asked ++ (S.asks name).toList)
      (given ++ (S.gives name).toList) (lists ++ (S.opens name).toList) := by
  cases h with
  | request m p => simpa [asks, gives, opens, Stack.held] using hacc
  | finish list m => simpa [asks, gives, opens, Program.turn, Stack.held] using hacc
  | fail h => simp [fault?, h] at hcalm
  | move h =>
    cases h with
    | answer a frame next below =>
      simpa [asks, gives, opens, Program.turn] using Account.receive hacc hS a
    | go stack h =>
      simpa [asks, gives, opens, h] using hacc.quiet ((edit_of_go h).quiet name)
    | call stack h =>
      simpa [asks, gives, opens, h, Stack.held] using hacc.call (call_of_turn h)

theorem filterMap_concat {β γ : Type} (f : β → Option γ) (l : List β) (x : β) :
    (l ++ [x]).filterMap f = l.filterMap f ++ (f x).toList := by
  cases h : f x <;> simp [h]

theorem History.account {past : List (Session α)} {S : Session α} (h : History past S)
    (hcalm : ∀ T ∈ past, T.fault? = none) (name : Nat) :
    Account name S.memory (S.held name) (past.filterMap (·.asks name))
      (past.filterMap (·.gives name)) (past.filterMap (·.opens name)) := by
  induction h with
  | here => exact .unborn (Nat.zero_le _) (fun _ _ h => by simp [Session.memory] at h) rfl
  | @next past S T h hnext ih =>
    simp only [filterMap_concat]
    have hpast : ∀ U ∈ past, U.fault? = none := fun U hU => hcalm U (List.mem_append_left _ hU)
    exact hnext.account (h.sound trivial) (hcalm S (by simp)) (ih hpast)

/-- A computation begins at a tail that is pending, and takes it. -/
theorem Next.begins {S T : Session α} (h : S.Next T) {a : Nat} (ha : S.begins = some a) :
    (∃ thunk, S.memory.tail? a = some (.pending thunk)) ∧ T.memory.tail? a = some .taken := by
  cases h with
  | request => cases ha
  | finish => simp [Session.begins, Program.turn] at ha
  | fail h => simp [Session.begins, h] at ha
  | move h =>
    cases h with
    | answer => simp [Session.begins, Program.turn] at ha
    | go stack h => simp [Session.begins, h] at ha
    | call stack h =>
      simp only [Session.begins, h] at ha
      obtain ⟨hnone, -⟩ | ⟨b, thunk, hb, hpending, rfl⟩ := (call_of_turn h).takes
      · cases hnone.symm.trans ha
      · obtain rfl : b = a := by simpa [hb] using ha
        exact ⟨⟨thunk, hpending⟩, Memory.tail?_setTail_of_eq hpending _⟩

/-- No tail is begun twice: once begun it is taken or known for good. -/
theorem History.nodup_begins {past : List (Session α)} {S : Session α} (h : History past S) :
    (past.filterMap Session.begins).Nodup ∧ ∀ a ∈ past.filterMap Session.begins,
      S.memory.tail? a = some .taken ∨ ∃ list, S.memory.tail? a = some (.ready list) := by
  induction h with
  | here => simp
  | @next past S T h hnext ih =>
    obtain ⟨ihnodup, ihbegun⟩ := ih
    have hgrows := (hnext.sound (h.sound trivial)).2
    have hkept (a) (ha : a ∈ past.filterMap Session.begins) :
        T.memory.tail? a = some .taken ∨ ∃ list, T.memory.tail? a = some (.ready list) := by
      obtain htaken | ⟨list, hready⟩ := ihbegun a ha
      · exact hgrows.taken htaken
      · exact .inr ⟨list, hgrows.ready hready⟩
    rw [filterMap_concat]
    cases hb : S.begins with
    | none => simpa using ⟨ihnodup, fun a => by simpa using hkept a⟩
    | some a =>
      obtain ⟨⟨thunk, hpending⟩, htaken⟩ := hnext.begins hb
      have hnew : a ∉ past.filterMap Session.begins := fun hmem => by
        obtain h' | ⟨list, h'⟩ := ihbegun a hmem <;> simp [hpending] at h'
      refine ⟨List.nodup_append.2 ⟨ihnodup, by simp, ?_⟩, fun b hb => ?_⟩
      · rintro b hmem _ hb rfl
        obtain rfl : b = a := by simpa using hb
        exact hnew hmem
      · obtain hb | rfl : b ∈ past.filterMap Session.begins ∨ b = a := by
          simpa only [List.mem_append, Option.toList_some, List.mem_singleton] using hb
        · exact hkept b hb
        · exact .inl htaken

end Session

/-- An iterator that gave its end is with nobody any more. -/
theorem Account.free_of_end {name : Nat} {m : Memory α} {held : List (Iterator α × Option Nat)}
    {asked : List Nat} {given : List (Option α)} {lists : List LazyList}
    (h : Account name m held asked given lists) (hend : none ∈ given) :
    name < m.iterators ∧ m.Free name := by
  cases h with
  | unborn | first => cases hend
  | waiting _ chain | asked _ chain => cases chain.last_eq_none hend
  | ended born _ free _ => exact ⟨born, free⟩

namespace Session

theorem asks_of_free {S : Session α} {name : Nat} (hborn : name < S.memory.iterators)
    (hfree : S.memory.Free name) : S.asks name = none := by
  cases S with
  | rest m => rfl
  | work s =>
    simp only [asks]
    split
    · next p m frame next h =>
      have hc := call_of_turn h
      cases hc with
      | plain | mapped | code => rfl
      | pull ha => simp [Frame.held, hfree ha]
      | first source =>
        have hne : s.memory.iterators ≠ name := (Nat.ne_of_lt hborn).symm
        simp [Frame.held, hne]
    · rfl

/-- An iterator that gave its end is not asked again. -/
theorem History.not_asked_after_end {past : List (Session α)} {S : Session α}
    (h : History past S) (hcalm : ∀ T ∈ past, T.fault? = none) (name : Nat) :
    past.Pairwise fun T U => T.gives name = some none → U.asks name = none := by
  induction h with
  | here => exact .nil
  | @next past S T h hnext ih =>
    have hpast : ∀ U ∈ past, U.fault? = none := fun U hU => hcalm U (List.mem_append_left _ hU)
    refine List.pairwise_append.2 ⟨ih hpast, List.pairwise_singleton _ _, ?_⟩
    intro U hU V hV hend
    obtain rfl : V = S := by simpa using hV
    have hmem : none ∈ past.filterMap (·.gives name) := List.mem_filterMap.2 ⟨U, hU, hend⟩
    obtain ⟨hborn, hfree⟩ := (History.account h hpast name).free_of_end hmem
    exact asks_of_free hborn hfree

theorem Stack.mem_inProgress_of_held {kind : Kind} {stack : Stack α kind} {name : Nat}
    {it : Iterator α} {a : Nat} (h : (it, some a) ∈ stack.held name) : a ∈ stack.inProgress := by
  induction stack with
  | bottom => cases h
  | push frame next below ih =>
    obtain h | h := List.mem_append.1 h
    · cases frame with
      | drawn it' address =>
        have heq : it = it' ∧ some a = address := by
          by_cases hname : it'.name = name <;> simp_all [Frame.held]
        simp [Stack.inProgress, Frame.address?, ← heq.2]
      | _ => cases h
    · exact List.mem_append_right _ (ih h)

theorem Sound.taken_of_held {S : Session α} (hS : S.Sound) {name : Nat} {it : Iterator α}
    {a : Nat} (h : (it, some a) ∈ S.held name) :
    a ∈ S.inProgress ∧ S.memory.tail? a = some .taken := by
  cases S with
  | rest m => cases h
  | work s =>
    have hmem := Stack.mem_inProgress_of_held h
    exact ⟨hmem, Stack.Holds.taken hS hmem⟩

end Session

/-- **Lazy lists are memoized over any history.** In a session without a fault, made of
any requests of any programs: the tail of a link is begun at most once; a tail that was
known at some moment is the same ever after; and the list that was made of an iterator
consists of what the iterator gave, in order. Unless it is just at work on the next
tail, the iterator was asked once for the list and once for each of its links whose
tail is computed; and it was not asked again after its end. -/
theorem lists_are_memoized {past : List (Session α)} {S : Session α}
    (history : Session.History past S) (calm : ∀ T ∈ past, T.fault? = none) :
    (past.filterMap Session.begins).Nodup
      ∧ (∀ T ∈ past, ∀ a list, T.memory.tail? a = some (.ready list) →
          S.memory.tail? a = some (.ready list))
      ∧ ∀ name list, list ∈ past.filterMap (·.opens name) →
          past.Pairwise (fun T U => T.gives name = some none → U.asks name = none)
          ∧ ∃ computed last,
              Chain S.memory list (past.filterMap (·.gives name)) computed last
              ∧ computed.Nodup
              ∧ (∀ a, last = some a → S.memory.isForced a = false)
              ∧ ((∀ a, last = some a → a ∉ S.inProgress) →
                  past.filterMap (·.asks name) = List.range (1 + computed.length)) := by
  refine ⟨history.nodup_begins.1, fun T hT a list hready => ?_, fun name list hopens => ?_⟩
  · obtain ⟨hsound, hreaches⟩ := history.reaches trivial hT
    exact (hreaches.sound hsound).2.ready hready
  refine ⟨history.not_asked_after_end calm name, ?_⟩
  have hacc := history.account calm name
  generalize past.filterMap (·.opens name) = lists at hopens hacc
  generalize past.filterMap (·.asks name) = asked at hacc ⊢
  generalize past.filterMap (·.gives name) = given at hacc ⊢
  cases hacc with
  | unborn | first => cases hopens
  | waiting _ chain holds =>
    obtain rfl := List.mem_singleton.1 hopens
    refine ⟨_, _, chain, chain.nodup, ?_, fun _ => by rw [chain.length_given]⟩
    rintro _ ⟨⟩
    simp [Memory.isForced, holds]
  | asked _ chain _ one =>
    obtain rfl := List.mem_singleton.1 hopens
    obtain ⟨hmem, htaken⟩ := (history.sound trivial).taken_of_held (by rw [one]; exact .head _)
    refine ⟨_, _, chain, chain.nodup, ?_, fun hnot => absurd hmem (hnot _ rfl)⟩
    rintro _ ⟨⟩
    simp [Memory.isForced, htaken]
  | ended _ chain =>
    obtain rfl := List.mem_singleton.1 hopens
    exact ⟨_, _, chain, chain.nodup, by simp, fun _ => by rw [chain.length_given]⟩

/-- An iterator over one element. -/
def onlySeven : Nat → Program Nat .item := fun index => .done (if index = 0 then some 7 else none)

/-- The list of one element, mapped, and the tail of the mapped list computed: this
computes the tail of the first list, too, for which the iterator is asked again. -/
theorem mapped_seven_is_memoized :
    ∃ past, ∃ S : Session Nat, Session.History past S ∧ (∀ T ∈ past, T.fault? = none)
      ∧ past.filterMap Session.begins = [1, 0] ∧ (past.filterMap Session.begins).Nodup
      ∧ ∃ computed last, Chain S.memory (.link 0) [some 7, none] computed last
        ∧ [0, 1] = List.range (1 + computed.length) := by
  have listed := (Session.Course.here.next
    (.request .empty (.lazy onlySeven .give))).moments
      (.inl ⟨.link 0, (rfl : run 9 _ = _)⟩)
  have mapped := (listed.next
    (.request _ (.map (fun x => .done (2 * x)) (.link 0) .give))).moments
      (.inl ⟨.link 1, (rfl : run 9 _ = _)⟩)
  have walked := (mapped.next (.request _ (.tail 1 .give))).moments
    (.inl ⟨.nil, (rfl : run 9 _ = _)⟩)
  obtain ⟨hnodup, -, hlists⟩ := lists_are_memoized walked (by decide)
  obtain ⟨-, computed, last, hchain, -, -, hasks⟩ := hlists 0 (.link 0) (by decide)
  exact ⟨_, _, walked, by decide, by decide, hnodup, computed, last, hchain,
    hasks fun _ _ => List.not_mem_nil⟩

end LazyGrammar.LazyList

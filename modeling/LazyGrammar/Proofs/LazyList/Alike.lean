import Mathlib.Data.List.Forall2
import LazyGrammar.Proofs.LazyList.Session

/-!
# LazyGrammar.Proofs.LazyList.Alike

**Memories that cannot be told apart.** Two memories that differ only in some tails, all
of them unknown, behave alike until one of these tails is asked for.

Design points:

* Whether a tail is known can be seen without asking for it, so `Memory.AlikeBut` has
  the tails unknown on both sides; what it is that is not known cannot be seen.
* A turn that does not ask for one of the tails is the same on both sides, and so is
  what a frame makes of an answer. Steps and sessions follow.
-/

namespace LazyGrammar.LazyList

variable {α : Type}

/-! ### Memories -/

/-- The link whose tail a program asks for. -/
def Program.wants {kind : Kind} : Program α kind → Option Nat
  | .tail address _ => some address
  | _ => none

/-- The link whose tail is asked for in the next step. -/
def Session.wants : Session α → Option Nat
  | .rest _ => none
  | .work s => s.program.wants

/-- Two memories are alike but for the tails of some links, which both do not know. -/
structure Memory.AlikeBut (links : List Nat) (m m' : Memory α) : Prop where
  head : ∀ a, m.head? a = m'.head? a
  tail : ∀ a, a ∉ links → m.tail? a = m'.tail? a
  unknown : ∀ a ∈ links, m.isForced a = false ∧ m'.isForced a = false
  bound : ∀ a ∈ links, a < m.fresh
  fresh : m.fresh = m'.fresh
  iterators : m.iterators = m'.iterators
  notes : m.notes = m'.notes

theorem Memory.isForced_eq {m : Memory α} {a : Nat} :
    m.isForced a = match m.tail? a with
      | some (.ready _) => true
      | _ => false := rfl

namespace Memory.AlikeBut

variable {links : List Nat} {m m' : Memory α}

/-- Every memory is alike but for tails that it does not know. -/
theorem of_unknown (h : ∀ a ∈ links, ∃ t, m.tail? a = some t ∧ ∀ list, t ≠ .ready list) :
    m.AlikeBut links m where
  head _ := rfl
  tail _ _ := rfl
  unknown a ha := by
    obtain ⟨t, ht, hne⟩ := h a ha
    cases t with
    | ready list => exact absurd rfl (hne list)
    | pending | taken => simp [isForced_eq, ht]
  bound a ha := by
    obtain ⟨t, ht, -⟩ := h a ha
    exact lt_fresh_of_tail? ht
  fresh := rfl
  iterators := rfl
  notes := rfl

theorem symm (h : m.AlikeBut links m') : m'.AlikeBut links m where
  head a := (h.head a).symm
  tail a ha := (h.tail a ha).symm
  unknown a ha := (h.unknown a ha).symm
  bound a ha := h.fresh ▸ h.bound a ha
  fresh := h.fresh.symm
  iterators := h.iterators.symm
  notes := h.notes.symm

theorem look (h : m.AlikeBut links m') (list : LazyList) : m.look list = m'.look list := by
  cases list with
  | nil => rfl
  | link a =>
    have hforced : m.isForced a = m'.isForced a := by
      by_cases ha : a ∈ links
      · rw [(h.unknown a ha).1, (h.unknown a ha).2]
      · rw [isForced_eq, isForced_eq, h.tail a ha]
    simp only [Memory.look, h.head, hforced]

theorem note (h : m.AlikeBut links m') (notes : List String) :
    (m.note notes).AlikeBut links (m'.note notes) :=
  { h with notes := by simp [Memory.note, h.notes] }

theorem openIterator (h : m.AlikeBut links m') :
    m.openIterator.AlikeBut links m'.openIterator :=
  { h with iterators := by simp [h.iterators] }

theorem add (h : m.AlikeBut links m') (x : α) (t : TailState α) :
    (m.add x t).AlikeBut links (m'.add x t) where
  head a := by rw [head?_add, head?_add, h.head, h.fresh]
  tail a ha := by rw [tail?_add, tail?_add, h.tail a ha, h.fresh]
  unknown a ha := by
    have hlt := h.bound a ha
    have hlt' := h.symm.bound a ha
    simpa [isForced_eq, tail?_add, Nat.ne_of_lt hlt, Nat.ne_of_lt hlt'] using h.unknown a ha
  bound a ha := by simpa using Nat.lt_succ_of_lt (h.bound a ha)
  fresh := by simp [h.fresh]
  iterators := h.iterators
  notes := h.notes

theorem setTail (h : m.AlikeBut links m') {a : Nat} (ha : a ∉ links) (t : TailState α) :
    (m.setTail a t).AlikeBut links (m'.setTail a t) where
  head b := by simp [h.head]
  tail b hb := by rw [tail?_setTail, tail?_setTail, h.tail b hb]
  unknown b hb := by
    have hne : b ≠ a := fun heq => ha (heq ▸ hb)
    simpa [isForced_eq, tail?_setTail, hne] using h.unknown b hb
  bound b hb := by simpa using h.bound b hb
  fresh := by simp [h.fresh]
  iterators := h.iterators
  notes := h.notes

/-- Whatever unknown is put into one of the links, the memories are alike. -/
theorem replace (h : m.AlikeBut links m') {a : Nat} (ha : a ∈ links) {t : TailState α}
    (ht : ∀ list, t ≠ .ready list) : m.AlikeBut links (m'.setTail a t) where
  head b := by simp [h.head]
  tail b hb := by
    have hne : b ≠ a := fun heq => hb (heq ▸ ha)
    rw [tail?_setTail_of_ne hne, h.tail b hb]
  unknown b hb := by
    refine ⟨(h.unknown b hb).1, ?_⟩
    rw [isForced_eq, tail?_setTail]
    by_cases hba : b = a
    · rw [if_pos hba]
      cases t with
      | ready list => exact absurd rfl (ht list)
      | pending | taken => cases m'.tail? b <;> rfl
    · rw [if_neg hba]
      exact (h.unknown b hb).2
  bound := h.bound
  fresh := by simp [h.fresh]
  iterators := h.iterators
  notes := h.notes

end Memory.AlikeBut

/-! ### Turns and answers -/

/-- The same turn on memories that are alike. -/
inductive Turn.AlikeBut (links : List Nat) {kind : Kind} : Turn α kind → Turn α kind → Prop
  | answer (a : kind.Answer α) : AlikeBut links (.answer a) (.answer a)
  | fail (fault : Fault) : AlikeBut links (.fail fault) (.fail fault)
  | go (p : Program α kind) {m m' : Memory α} (h : m.AlikeBut links m') :
      AlikeBut links (.go p m) (.go p m')
  | call {callee : Kind} (p : Program α callee) {m m' : Memory α} {frame : Frame α callee}
      (next : LazyList → Program α kind) (h : m.AlikeBut links m')
      (hframe : ∀ a ∈ links, frame.address? ≠ some a) :
      AlikeBut links (.call p m frame next) (.call p m' frame next)

namespace Turn.AlikeBut

variable {links : List Nat} {kind callee : Kind} {t : Turn α kind} {m : Memory α}

theorem eq_go {q : Program α kind} (h : (Turn.go q m).AlikeBut links t) :
    ∃ m', t = .go q m' ∧ m.AlikeBut links m' := by
  cases h with
  | go q h => exact ⟨_, rfl, h⟩

theorem eq_call {q : Program α callee} {frame : Frame α callee}
    {next : LazyList → Program α kind} (h : (Turn.call q m frame next).AlikeBut links t) :
    ∃ m', t = .call q m' frame next ∧ m.AlikeBut links m'
      ∧ ∀ a ∈ links, frame.address? ≠ some a := by
  cases h with
  | call q next h hframe => exact ⟨_, rfl, h, hframe⟩

theorem eq_fail {fault : Fault} (h : (Turn.fail fault : Turn α kind).AlikeBut links t) :
    t = .fail fault := by
  cases h with
  | fail => rfl

end Turn.AlikeBut

/-- A program that does not ask for one of the tails cannot tell the memories apart. -/
theorem Memory.AlikeBut.turn {links : List Nat} {m m' : Memory α} (h : m.AlikeBut links m')
    {kind : Kind} (p : Program α kind) (hp : ∀ a ∈ links, p.wants ≠ some a) :
    (p.turn m).AlikeBut links (p.turn m') := by
  have hnone {callee : Kind} {frame : Frame α callee} (hnone : frame.address? = none) :
      ∀ a ∈ links, frame.address? ≠ some a := fun _ _ heq => by simp [hnone] at heq
  cases p with
  | done a => exact .answer a
  | raise fault => exact .fail fault
  | note notes next => exact .go _ (h.note notes)
  | readNotes next => simpa only [Program.turn, h.notes] using .go _ h
  | look list next => simpa only [Program.turn, h.look] using .go _ h
  | tail a next =>
    have ha : a ∉ links := fun hmem => hp a hmem rfl
    simp only [Program.turn, h.tail a ha]
    cases m'.tail? a with
    | none => exact .fail _
    | some t =>
      have hframe : ∀ b ∈ links, some a ≠ some b := fun b hb heq =>
        ha ((Option.some.inj heq) ▸ hb)
      cases t with
      | ready list => exact .go _ h
      | taken => exact .fail _
      | pending thunk =>
        cases thunk with
        | code q => exact .call _ _ (h.setTail ha _) hframe
        | pull it => exact .call _ _ (h.setTail ha _) hframe
  | cons x list next => simpa only [Program.turn, h.fresh] using .go _ (h.add x _)
  | new x q next => simpa only [Program.turn, h.fresh] using .go _ (h.add x _)
  | lazy source next =>
    simpa only [Program.turn, h.iterators] using .call _ _ h.openIterator (hnone rfl)
  | map f list next =>
    cases list with
    | nil => exact .go _ h
    | link a =>
      simp only [Program.turn, h.head]
      cases m'.head? a with
      | none => exact .fail _
      | some x => exact .call _ _ h (hnone rfl)
  | concat list that next =>
    cases list with
    | nil => exact .call _ _ h (hnone rfl)
    | link a =>
      simp only [Program.turn, h.head, h.fresh]
      cases m'.head? a with
      | none => exact .fail _
      | some x => exact .go _ (h.add x _)
  | flatMap f list next =>
    cases list with
    | nil => exact .go _ h
    | link a =>
      simp only [Program.turn, h.head]
      cases m'.head? a with
      | none => exact .fail _
      | some x => exact .call _ _ h (hnone rfl)

theorem Memory.AlikeBut.receive {links : List Nat} {m m' : Memory α}
    (h : m.AlikeBut links m') {kind : Kind} (frame : Frame α kind)
    (hframe : ∀ a ∈ links, frame.address? ≠ some a) (x : kind.Answer α) :
    (frame.receive m x).1 = (frame.receive m' x).1
      ∧ (frame.receive m x).2.AlikeBut links (frame.receive m' x).2 := by
  have hmade : (frame.made m x).1 = (frame.made m' x).1
      ∧ (frame.made m x).2.AlikeBut links (frame.made m' x).2 := by
    cases frame with
    | plain | store => exact ⟨rfl, h⟩
    | mapped f address => exact ⟨by simp [Frame.made, h.fresh], h.add _ _⟩
    | drawn it address =>
      cases x with
      | none => exact ⟨rfl, h⟩
      | some y => exact ⟨by simp [Frame.made, h.fresh], h.add _ _⟩
  refine ⟨hmade.1, ?_⟩
  simp only [Frame.receive, Memory.keep, ← hmade.1]
  split
  · next a ha => exact hmade.2.setTail (fun hmem => hframe a hmem ha) _
  · exact hmade.2

/-! ### Sessions -/

namespace Session

/-- The same moment of two sessions, on memories that are alike, with none of the links
in progress. -/
inductive AlikeBut (links : List Nat) : Session α → Session α → Prop
  | rest {m m' : Memory α} (h : m.AlikeBut links m') : AlikeBut links (.rest m) (.rest m')
  | work {kind : Kind} (p : Program α kind) {stack : Stack α kind} {m m' : Memory α}
      (h : m.AlikeBut links m') (hstack : ∀ a ∈ links, a ∉ stack.inProgress) :
      AlikeBut links (.work ⟨p, stack, m⟩) (.work ⟨p, stack, m'⟩)

/-- A step that does not ask for one of the tails is the same in both sessions. -/
theorem AlikeBut.next {links : List Nat} {S S' T : Session α} (h : S.AlikeBut links S')
    (hwants : ∀ a ∈ links, S.wants ≠ some a) (hnext : S.Next T) :
    ∃ T', S'.Next T' ∧ T.AlikeBut links T' := by
  cases h with
  | rest h =>
    cases hnext with
    | request _ p => exact ⟨_, .request _ p, .work p h fun _ _ => List.not_mem_nil⟩
  | work p h hstack =>
    have hturn := h.turn p hwants
    cases hnext with
    | finish list m => exact ⟨_, .finish list _, .rest h⟩
    | fail hfail =>
      exact ⟨_, .fail (Turn.AlikeBut.eq_fail (hfail ▸ hturn)), .rest h⟩
    | move hmove =>
      cases hmove with
      | answer x frame next below =>
        have hframe (a) (ha : a ∈ links) : frame.address? ≠ some a := fun heq =>
          hstack a ha (List.mem_append_left _ (by simp [heq]))
        obtain ⟨hlist, hmemory⟩ := h.receive frame hframe x
        refine ⟨_, .move (.answer x frame next below), ?_⟩
        rw [← hlist]
        exact .work _ hmemory fun a ha hmem => hstack a ha (List.mem_append_right _ hmem)
      | go stack hgo =>
        obtain ⟨m', hgo', h⟩ := Turn.AlikeBut.eq_go (hgo ▸ hturn)
        exact ⟨_, .move (.go _ hgo'), .work _ h hstack⟩
      | call stack hcall =>
        obtain ⟨m', hcall', h, hframe⟩ := Turn.AlikeBut.eq_call (hcall ▸ hturn)
        refine ⟨_, .move (.call _ hcall'), .work _ h fun a ha hmem => ?_⟩
        obtain hmem | hmem := List.mem_append.1 hmem
        · exact hframe a ha (by simpa using hmem)
        · exact hstack a ha hmem

/-- As long as none of the tails is asked for, the sessions are the same. -/
theorem Course.alike {links : List Nat} {S S' T : Session α} {past : List (Session α)}
    (h : Course S past T) (hS : S.AlikeBut links S')
    (hwants : ∀ U ∈ past, ∀ a ∈ links, U.wants ≠ some a) :
    ∃ past' T', Course S' past' T' ∧ List.Forall₂ (AlikeBut links) past past'
      ∧ T.AlikeBut links T' := by
  induction h with
  | here => exact ⟨[], S', .here, .nil, hS⟩
  | @next past U V h hnext ih =>
    obtain ⟨past', U', hcourse, hpast, hU⟩ := ih fun W hW => hwants W (List.mem_append_left _ hW)
    obtain ⟨V', hnext', hV⟩ := hU.next (hwants U (by simp)) hnext
    exact ⟨past' ++ [U'], V', hcourse.next hnext', List.rel_append hpast (.cons hU .nil), hV⟩

end Session

end LazyGrammar.LazyList

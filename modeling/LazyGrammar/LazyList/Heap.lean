import LazyGrammar.LazyList.Program

/-!
# LazyGrammar.LazyList.Heap

**Lazy lists that are computed once.** A list is nothing or a link of a heap; a link
has a head and a tail, and the tail is known, still to be computed, or being
computed. Lists share links, so what is computed for one of them is known to all.

Design points:

* A thunk is taken out of its link before it runs. A link whose thunk has been taken
  and has not come back with a list is `taken`: needing its tail again is a fault.
* An iterator lives in the thunk that will ask it next. Asking takes it out with the
  thunk, and only the link made from the element that it gives holds it again.
-/

namespace LazyGrammar.LazyList

variable {α : Type}

/-- An iterator: a name that tells it from others, what it gives, and how often it was
asked. -/
structure Iterator (α : Type) where
  name : Nat
  source : Nat → Program α .item
  asked : Nat
  deriving Inhabited

namespace Iterator

/-- What the iterator does when it is asked. -/
def question (it : Iterator α) : Program α .item := it.source it.asked

/-- The iterator when it has been asked once more. -/
def advance (it : Iterator α) : Iterator α := { it with asked := it.asked + 1 }

@[simp] theorem name_advance (it : Iterator α) : it.advance.name = it.name := rfl

@[simp] theorem asked_advance (it : Iterator α) : it.advance.asked = it.asked + 1 := rfl

end Iterator

/-- How a tail is computed. -/
inductive Thunk (α : Type)
  /-- Ask the iterator for its next element. -/
  | pull (it : Iterator α)
  | code (program : Program α .list)
  deriving Inhabited

/-- What is known of a tail. -/
inductive TailState (α : Type)
  | ready (list : LazyList)
  | pending (thunk : Thunk α)
  /-- Being computed, or given up while it was being computed. -/
  | taken
  deriving Inhabited

/-- A head and a tail. -/
structure Link (α : Type) where
  head : α
  tail : TailState α
  deriving Inhabited

/-- All links. -/
structure Heap (α : Type) where
  links : Array (Link α)
  deriving Inhabited

namespace Heap

/-- A heap without links. -/
def empty : Heap α := ⟨#[]⟩

/-- The link at an address. -/
def link? (h : Heap α) (address : Nat) : Option (Link α) := h.links[address]?

/-- The address of the next new link. -/
def fresh (h : Heap α) : Nat := h.links.size

/-- Adds a link at the address `h.fresh`. -/
def add (h : Heap α) (head : α) (tail : TailState α) : Heap α :=
  ⟨h.links.push ⟨head, tail⟩⟩

/-- Changes what is known of the tail at an address. -/
def setTail (h : Heap α) (address : Nat) (tail : TailState α) : Heap α :=
  ⟨h.links.modify address fun l => { l with tail }⟩

@[simp] theorem link?_empty (address : Nat) : (empty : Heap α).link? address = none := rfl

@[simp] theorem fresh_empty : (empty : Heap α).fresh = 0 := rfl

theorem link?_add (h : Heap α) (head : α) (tail : TailState α) (address : Nat) :
    (h.add head tail).link? address
      = if address = h.fresh then some ⟨head, tail⟩ else h.link? address := by
  simp only [add, link?, fresh, Array.getElem?_push]
  rfl

@[simp] theorem fresh_add (h : Heap α) (head : α) (tail : TailState α) :
    (h.add head tail).fresh = h.fresh + 1 := by
  simp [add, fresh]

@[simp] theorem fresh_setTail (h : Heap α) (address : Nat) (tail : TailState α) :
    (h.setTail address tail).fresh = h.fresh := by
  simp [setTail, fresh]

theorem link?_setTail (h : Heap α) (address : Nat) (tail : TailState α) (other : Nat) :
    (h.setTail address tail).link? other
      = if other = address then (h.link? other).map fun l => { l with tail }
        else h.link? other := by
  simp only [setTail, link?, Array.getElem?_modify, eq_comm (a := address)]

theorem link?_isSome_iff {h : Heap α} {address : Nat} :
    (h.link? address).isSome ↔ address < h.fresh := by
  simp [link?, fresh]

/-- Heaps with the same links are the same. -/
theorem ext {h h' : Heap α} (hlink : ∀ a, h.link? a = h'.link? a) : h = h' := by
  obtain ⟨links⟩ := h
  obtain ⟨links'⟩ := h'
  congr 1
  exact Array.ext_getElem? hlink

end Heap

/-- The links, the number of iterators so far, and the notes taken so far. -/
structure Memory (α : Type) where
  heap : Heap α
  iterators : Nat
  notes : Array String
  deriving Inhabited

namespace Memory

/-- Nothing so far. -/
def empty : Memory α := ⟨.empty, 0, #[]⟩

/-- The address of the next new link. -/
def fresh (m : Memory α) : Nat := m.heap.fresh

/-- The head at an address. -/
def head? (m : Memory α) (address : Nat) : Option α := (m.heap.link? address).map (·.head)

/-- What is known of the tail at an address. -/
def tail? (m : Memory α) (address : Nat) : Option (TailState α) :=
  (m.heap.link? address).map (·.tail)

/-- Whether the tail at an address is known. -/
def isForced (m : Memory α) (address : Nat) : Bool :=
  match m.tail? address with
  | some (.ready _) => true
  | _ => false

/-- The head of a list and whether its tail is known. -/
def look (m : Memory α) : LazyList → Option (α × Bool)
  | .nil => none
  | .link address => (m.head? address).map fun x => (x, m.isForced address)

/-- Takes notes. -/
def note (m : Memory α) (notes : List String) : Memory α :=
  { m with notes := m.notes ++ notes.toArray }

/-- Adds a link at the address `m.fresh`. -/
def add (m : Memory α) (head : α) (tail : TailState α) : Memory α :=
  { m with heap := m.heap.add head tail }

/-- Changes what is known of a tail. -/
def setTail (m : Memory α) (address : Nat) (tail : TailState α) : Memory α :=
  { m with heap := m.heap.setTail address tail }

/-- Makes a list the tail of a link, if there is one to keep it. -/
def keep (m : Memory α) (list : LazyList) : Option Nat → Memory α
  | some address => m.setTail address (.ready list)
  | none => m

/-- Counts one more iterator, with the name `m.iterators`. -/
def openIterator (m : Memory α) : Memory α := { m with iterators := m.iterators + 1 }

variable (m : Memory α)

@[simp] theorem tail?_empty (address : Nat) : (empty : Memory α).tail? address = none := rfl

@[simp] theorem head?_note (notes : List String) (a : Nat) :
    (m.note notes).head? a = m.head? a := rfl

@[simp] theorem tail?_note (notes : List String) (a : Nat) :
    (m.note notes).tail? a = m.tail? a := rfl

@[simp] theorem fresh_note (notes : List String) : (m.note notes).fresh = m.fresh := rfl

@[simp] theorem iterators_note (notes : List String) :
    (m.note notes).iterators = m.iterators := rfl

@[simp] theorem head?_openIterator (a : Nat) : m.openIterator.head? a = m.head? a := rfl

@[simp] theorem tail?_openIterator (a : Nat) : m.openIterator.tail? a = m.tail? a := rfl

@[simp] theorem fresh_openIterator : m.openIterator.fresh = m.fresh := rfl

@[simp] theorem iterators_openIterator : m.openIterator.iterators = m.iterators + 1 := rfl

theorem head?_add (x : α) (t : TailState α) (a : Nat) :
    (m.add x t).head? a = if a = m.fresh then some x else m.head? a := by
  by_cases h : a = m.heap.fresh <;> simp [head?, add, Heap.link?_add, fresh, h]

theorem tail?_add (x : α) (t : TailState α) (a : Nat) :
    (m.add x t).tail? a = if a = m.fresh then some t else m.tail? a := by
  by_cases h : a = m.heap.fresh <;> simp [tail?, add, Heap.link?_add, fresh, h]

@[simp] theorem fresh_add (x : α) (t : TailState α) : (m.add x t).fresh = m.fresh + 1 := by
  simp [fresh, add]

@[simp] theorem iterators_add (x : α) (t : TailState α) :
    (m.add x t).iterators = m.iterators := rfl

@[simp] theorem notes_add (x : α) (t : TailState α) : (m.add x t).notes = m.notes := rfl

@[simp] theorem head?_setTail (a : Nat) (t : TailState α) (b : Nat) :
    (m.setTail a t).head? b = m.head? b := by
  simp only [head?, setTail, Heap.link?_setTail]
  split
  · simp [Option.map_map, Function.comp_def]
  · rfl

theorem tail?_setTail (a : Nat) (t : TailState α) (b : Nat) :
    (m.setTail a t).tail? b = if b = a then (m.tail? b).map fun _ => t else m.tail? b := by
  simp only [tail?, setTail, Heap.link?_setTail]
  split
  · simp [Option.map_map, Function.comp_def]
  · rfl

@[simp] theorem fresh_setTail (a : Nat) (t : TailState α) :
    (m.setTail a t).fresh = m.fresh := by
  simp [fresh, setTail]

@[simp] theorem iterators_setTail (a : Nat) (t : TailState α) :
    (m.setTail a t).iterators = m.iterators := rfl

@[simp] theorem notes_setTail (a : Nat) (t : TailState α) :
    (m.setTail a t).notes = m.notes := rfl

variable {m}

theorem tail?_setTail_of_eq {a : Nat} {t : TailState α} (h : m.tail? a = some t)
    (u : TailState α) : (m.setTail a u).tail? a = some u := by
  simp [tail?_setTail, h]

theorem tail?_setTail_of_ne {a b : Nat} (h : b ≠ a) (t : TailState α) :
    (m.setTail a t).tail? b = m.tail? b := by
  rw [tail?_setTail, if_neg h]

theorem tail?_isSome_iff {a : Nat} : (m.tail? a).isSome ↔ a < m.fresh := by
  simp [tail?, fresh, Heap.link?_isSome_iff]

theorem lt_fresh_of_tail? {a : Nat} {t : TailState α} (h : m.tail? a = some t) : a < m.fresh :=
  tail?_isSome_iff.1 (by simp [h])

theorem head?_isSome_iff {a : Nat} : (m.head? a).isSome ↔ a < m.fresh := by
  simp [head?, fresh, Heap.link?_isSome_iff]

/-- Memories with the same links, iterators and notes are the same. -/
theorem ext_of {m' : Memory α} (hhead : ∀ a, m.head? a = m'.head? a)
    (htail : ∀ a, m.tail? a = m'.tail? a) (hits : m.iterators = m'.iterators)
    (hnotes : m.notes = m'.notes) : m = m' := by
  obtain ⟨heap, its, notes⟩ := m
  obtain ⟨heap', its', notes'⟩ := m'
  obtain rfl : heap = heap' := by
    refine Heap.ext fun a => ?_
    have hh := hhead a
    have ht := htail a
    simp only [head?, tail?] at hh ht
    cases h : heap.link? a <;> cases h' : heap'.link? a <;> simp_all
    rename_i l l'
    cases l
    cases l'
    simp_all
  subst hits hnotes
  rfl

end Memory

end LazyGrammar.LazyList

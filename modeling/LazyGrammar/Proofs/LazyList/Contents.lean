import Mathlib.Data.Seq.Basic
import LazyGrammar.Proofs.LazyList.Derived

/-!
# LazyGrammar.Proofs.LazyList.Contents

**What lists consist of.** What is known of a list agrees with a sequence, finite or
endless, if it is a part of the sequence from its start. What is known of a mapped, a
joined or a flattened list agrees with the mapped, the joined or the flattened sequence.

Design points:

* A list was made between two moments of a session (`Session.Made`), by a request in
  any program. Whatever else was asked for since then is a part of the session.
* A link of such a list once waited for the tail of a link of its source
  (`Session.Waits`). If its tail is known now, so is the other one, and the same
  operation made the one of the other (`Waits.gave`). That is the step of each induction.
-/

namespace LazyGrammar.LazyList

variable {α : Type}

/-! ### What is known of a list -/

namespace Memory

/-- The first element of a list. -/
def first? (m : Memory α) : LazyList → Option α
  | .nil => none
  | .link a => m.head? a

/-- What is left of a list after its first tails, if they are known. -/
def after (m : Memory α) : Nat → LazyList → Option LazyList
  | 0, list => some list
  | _ + 1, .nil => some .nil
  | count + 1, .link a =>
    match m.tail? a with
    | some (.ready list) => m.after count list
    | _ => none

/-- What is known of a list is a part of a sequence, from its start. -/
def Agrees (m : Memory α) (list : LazyList) (A : Stream'.Seq α) : Prop :=
  ∀ count rest, m.after count list = some rest → m.first? rest = A.get? count

/-- A list is known to have a number of elements. -/
def Ends (m : Memory α) (list : LazyList) (count : Nat) : Prop :=
  m.after count list = some .nil ∧ ∀ i < count, m.after i list ≠ some .nil

variable {m : Memory α}

@[simp] theorem after_nil (m : Memory α) (count : Nat) : m.after count .nil = some .nil := by
  cases count <;> rfl

theorem after_of_ready {a : Nat} {list : LazyList} (h : m.tail? a = some (.ready list))
    (count : Nat) : m.after (count + 1) (.link a) = m.after count list := by
  simp only [after, h]

theorem ready_of_after {a count : Nat} {rest : LazyList}
    (h : m.after (count + 1) (.link a) = some rest) :
    ∃ list, m.tail? a = some (.ready list) ∧ m.after count list = some rest := by
  simp only [after] at h
  split at h
  · next list ha => exact ⟨list, ha, h⟩
  · cases h

/-- The tail of the last link that is known is what is left after one more. -/
theorem after_succ {count a : Nat} {list rest : LazyList}
    (h : m.after count list = some (.link a)) (ha : m.tail? a = some (.ready rest)) :
    m.after (count + 1) list = some rest := by
  induction count generalizing list with
  | zero =>
    obtain rfl : list = .link a := by simpa [after] using h
    exact after_of_ready ha 0
  | succ count ih =>
    cases list with
    | nil => simp at h
    | link b =>
      obtain ⟨list', hb, hafter⟩ := ready_of_after h
      exact (after_of_ready hb _).trans (ih hafter)

theorem Grows.after {m' : Memory α} (h : m.Grows m') {count : Nat} {list rest : LazyList}
    (hrest : m.after count list = some rest) : m'.after count list = some rest := by
  induction count generalizing list with
  | zero => exact hrest
  | succ count ih =>
    cases list with
    | nil => exact hrest
    | link a =>
      obtain ⟨list', ha, hafter⟩ := ready_of_after hrest
      exact (after_of_ready (h.ready ha) count).trans (ih hafter)

theorem Agrees.eq_nil {A : Stream'.Seq α} (h : m.Agrees .nil A) : A = .nil :=
  Stream'.Seq.get?_zero_eq_none.1 (h 0 _ rfl).symm

theorem agrees_nil (m : Memory α) : m.Agrees .nil (.nil : Stream'.Seq α) := by
  intro count rest h
  obtain rfl : rest = .nil := by simpa using h.symm
  rfl

/-- A sequence that agrees with a link starts with its head. -/
theorem Agrees.exists_cons {A : Stream'.Seq α} {a : Nat} {x : α} (h : m.Agrees (.link a) A)
    (hx : m.head? a = some x) :
    ∃ A', A = .cons x A' ∧ ∀ list, m.tail? a = some (.ready list) → m.Agrees list A' := by
  have hfirst : m.head? a = A.get? 0 := h 0 _ rfl
  cases A using Stream'.Seq.recOn with
  | nil => simp [hx] at hfirst
  | cons y A' =>
    obtain rfl : x = y := by simpa [hx] using hfirst
    refine ⟨A', rfl, fun list ha count rest hrest => ?_⟩
    exact h (count + 1) rest ((after_of_ready ha count).trans hrest)

/-- A list agrees with a sequence if it starts with its first element and if the same
holds of what follows, as far as it is known. -/
theorem Agrees.of_step {R : LazyList → Stream'.Seq α → Prop}
    (step : ∀ list B, R list B → m.Agrees list B
      ∨ ∃ b y B', list = .link b ∧ B = .cons y B' ∧ m.head? b = some y
        ∧ ∀ list', m.tail? b = some (.ready list') → R list' B')
    {list : LazyList} {B : Stream'.Seq α} (h : R list B) : m.Agrees list B := by
  intro count
  induction count generalizing list B with
  | zero =>
    obtain hagrees | ⟨b, y, B', rfl, rfl, hhead, -⟩ := step list B h
    · exact hagrees 0
    · rintro rest ⟨⟩
      exact hhead
  | succ count ih =>
    obtain hagrees | ⟨b, y, B', rfl, rfl, -, htail⟩ := step list B h
    · exact hagrees (count + 1)
    · intro rest hrest
      obtain ⟨list', hb, hafter⟩ := ready_of_after hrest
      rw [Stream'.Seq.get?_cons_succ]
      exact ih (htail list' hb) rest hafter

theorem ends_nil (m : Memory α) : m.Ends .nil 0 :=
  ⟨rfl, fun i hi => absurd hi (Nat.not_lt_zero i)⟩

theorem Ends.tail {list : LazyList} {a count : Nat} (h : m.Ends (.link a) (count + 1))
    (ha : m.tail? a = some (.ready list)) : m.Ends list count := by
  refine ⟨(after_of_ready ha count).symm.trans h.1, fun i hi => ?_⟩
  rw [← after_of_ready ha]
  exact h.2 _ (Nat.succ_lt_succ hi)

theorem Ends.link {list : LazyList} {a count : Nat} (h : m.Ends list count)
    (ha : m.tail? a = some (.ready list)) : m.Ends (.link a) (count + 1) := by
  refine ⟨(after_of_ready ha count).trans h.1, fun i hi => ?_⟩
  cases i with
  | zero => simp [after]
  | succ i =>
    rw [after_of_ready ha]
    exact h.2 i (Nat.lt_of_succ_lt_succ hi)

end Memory

/-! ### How lists were made -/

namespace Session

/-- A list was made, in answer to a request, between two moments. -/
def Made (S : Session α)
    (request : (kind : Kind) → (LazyList → Program α kind) → Program α kind)
    (list : LazyList) (T : Session α) : Prop :=
  ∃ (kind : Kind) (next : LazyList → Program α kind) (stack : Stack α kind)
    (m m' : Memory α), S.Reaches (.work ⟨request kind next, stack, m⟩)
      ∧ Evaluates m (request .list .give) list m'
      ∧ Reaches (.work ⟨next list, stack, m'⟩) T

/-- At some moment a link waited for the tail of another one, to go on with it. -/
def Waits (S : Session α) (go : LazyList → Program α .list) (a b : Nat) (T : Session α) :
    Prop :=
  ∃ U, S.Reaches U ∧ U.Reaches T ∧ U.memory.tail? b = some (.pending (.code (.tail a go)))

variable {S T : Session α}

/-- Between two moments of a session the memory grows. -/
theorem Reaches.grows {U : Session α} (hS : S.Sound) (h : S.Reaches U) (h' : U.Reaches T) :
    U.memory.Grows T.memory :=
  (h'.sound (h.sound hS).1).2

theorem Made.of_gave {request : (kind : Kind) → (LazyList → Program α kind) → Program α kind}
    {list : LazyList} (h : S.Gave (request .list .give) list T) : S.Made request list T := by
  obtain ⟨stack, m, m', hreaches, heval, hrest⟩ := h
  exact ⟨.list, .give, stack, m, m', hreaches, heval, hrest⟩

theorem Gave.later {kind : Kind} {p : Program α kind} {x : kind.Answer α} {U : Session α}
    (h : S.Gave p x T) (hU : T.Reaches U) : S.Gave p x U := by
  obtain ⟨stack, m, m', hreaches, heval, hrest⟩ := h
  exact ⟨stack, m, m', hreaches, heval, hrest.trans hU⟩

theorem Made.later {request : (kind : Kind) → (LazyList → Program α kind) → Program α kind}
    {list : LazyList} {U : Session α} (h : S.Made request list T) (hU : T.Reaches U) :
    S.Made request list U := by
  obtain ⟨kind, next, stack, m, m', hreaches, heval, hrest⟩ := h
  exact ⟨kind, next, stack, m, m', hreaches, heval, hrest.trans hU⟩

theorem Waits.later {go : LazyList → Program α .list} {a b : Nat} {U : Session α}
    (h : S.Waits go a b T) (hU : T.Reaches U) : S.Waits go a b U := by
  obtain ⟨V, hV, hT, hb⟩ := h
  exact ⟨V, hV, hT.trans hU, hb⟩

/-- What asked for a tail went on with it, and it is known since then. -/
theorem Gave.of_tail (hS : S.Sound) {kind : Kind} {a : Nat}
    {next : LazyList → Program α kind} {ans : kind.Answer α}
    (h : S.Gave (.tail a next) ans T) :
    ∃ list, T.memory.tail? a = some (.ready list) ∧ S.Gave (next list) ans T := by
  obtain ⟨stack, m, m', hreaches, heval, hrest⟩ := h
  obtain ⟨list, m₁, htail, hnext⟩ := evaluates_tail_iff.1 heval
  have hreaches₁ := hreaches.trans (reaches_of_moves (htail.tail_moves next stack))
  have hrest₁ := (reaches_of_moves (hnext.moves stack)).trans hrest
  exact ⟨list, (Reaches.grows hS hreaches₁ hrest₁).ready htail.tail_known,
    stack, m₁, m', hreaches₁, hnext, hrest⟩

/-- If the tail of a link is known that waited for another one, then that is known as
well, and what went on with it gave the tail. -/
theorem Waits.gave (hS : S.Sound) {go : LazyList → Program α .list} {a b : Nat}
    {list : LazyList} (h : S.Waits go a b T) (hb : T.memory.tail? b = some (.ready list)) :
    ∃ source, T.memory.tail? a = some (.ready source) ∧ S.Gave (go source) list T := by
  obtain ⟨U, hU, hT, hpending⟩ := h
  obtain ⟨stack, m, m', hreaches, rest⟩ := Reaches.gave hT (hU.sound hS).1 hpending hb
  exact Gave.of_tail hS ⟨stack, m, m', hU.trans hreaches, rest⟩

/-- A program that was called gave its answer, and what called it goes on. -/
theorem Gave.of_call {kind callee : Kind} {p : Program α kind} {q : Program α callee}
    {m m₁ m₂ : Memory α} {frame : Frame α callee} {next : LazyList → Program α kind}
    {stack : Stack α kind} {x : callee.Answer α} (turn : p.turn m = .call q m₁ frame next)
    (called : Evaluates m₁ q x m₂) (hreaches : S.Reaches (.work ⟨p, stack, m⟩))
    (hrest : Reaches
      (.work ⟨next (frame.receive m₂ x).1, stack, (frame.receive m₂ x).2⟩) T) :
    S.Gave q x T ∧ S.Reaches
      (.work ⟨next (frame.receive m₂ x).1, stack, (frame.receive m₂ x).2⟩) := by
  have hcall : S.Reaches (.work ⟨q, .push frame next stack, m₁⟩) :=
    hreaches.tail (.move (.call stack turn))
  have hanswer := Next.move (.answer (m := m₂) x frame next stack)
  exact ⟨⟨_, m₁, m₂, hcall, called, .head hanswer hrest⟩,
    (hcall.trans (reaches_of_moves (called.moves _))).tail hanswer⟩

/-! ### What was made of a list -/

section Made

variable {f : α → Program α .element} {that : Program α .list} {a : Nat} {list : LazyList}

theorem Made.eq_nil_of_map (h : S.Made (fun _ => .map f .nil) list T) : list = .nil := by
  obtain ⟨-, next, stack, m, m', -, heval, -⟩ := h
  exact (evaluates_done.1 (evaluates_map_nil.1 heval)).1

/-- A mapped list starts with what the function gave for the first element, and waits
for the tail of its source. -/
theorem Made.map_link (hS : S.Sound) (h : S.Made (fun _ => .map f (.link a)) list T) :
    ∃ b x y, list = .link b ∧ T.memory.head? a = some x ∧ T.memory.head? b = some y
      ∧ S.Gave (f x) y T ∧ S.Waits (fun source => .map f source .give) a b T := by
  obtain ⟨kind, next, stack, m, m', hreaches, heval, hrest⟩ := h
  obtain ⟨x, y, m₁, hx, hf, hdone⟩ := evaluates_map_link.1 heval
  obtain ⟨rfl, rfl⟩ := evaluates_done.1 hdone
  obtain ⟨hgave, hmade⟩ := Gave.of_call (Program.turn_map_link next f hx) hf hreaches hrest
  have hx₁ := hf.grows.1.head hx
  have hgrows := Reaches.grows hS hmade hrest
  refine ⟨m₁.fresh, x, y, rfl, hgrows.head ?_, hgrows.head ?_, hgave, _, hmade, hrest, ?_⟩
  · exact (Memory.Grows.add m₁ y _).head hx₁
  · exact (m₁.head?_add y _ _).trans (if_pos rfl)
  · exact (m₁.tail?_add y _ _).trans (if_pos rfl)

/-- Behind the empty list stands what the supplier gave. -/
theorem Made.gave_of_concat (h : S.Made (fun _ => .concat .nil that) list T) :
    S.Gave that list T := by
  obtain ⟨kind, next, stack, m, m', hreaches, heval, hrest⟩ := h
  obtain ⟨list', m₁, hthat, hdone⟩ := evaluates_concat_nil.1 heval
  obtain ⟨rfl, rfl⟩ := evaluates_done.1 hdone
  have hturn : (Program.concat .nil that next).turn m = .call that m .plain next := rfl
  exact (Gave.of_call hturn hthat hreaches hrest).1

/-- A joined list starts with the first element, and waits for the tail of its source. -/
theorem Made.concat_link (hS : S.Sound) (h : S.Made (fun _ => .concat (.link a) that) list T) :
    ∃ b x, list = .link b ∧ T.memory.head? a = some x ∧ T.memory.head? b = some x
      ∧ S.Waits (fun source => .concat source that .give) a b T := by
  obtain ⟨kind, next, stack, m, m', hreaches, heval, hrest⟩ := h
  obtain ⟨x, hx, hdone⟩ := evaluates_concat_link.1 heval
  obtain ⟨rfl, rfl⟩ := evaluates_done.1 hdone
  have hmade := hreaches.tail (.move (.go stack (Program.turn_concat_link next that hx)))
  have hgrows := Reaches.grows hS hmade hrest
  refine ⟨m.fresh, x, rfl, hgrows.head ?_, hgrows.head ?_, _, hmade, hrest, ?_⟩
  · exact (Memory.Grows.add m x _).head hx
  · exact (m.head?_add x _ _).trans (if_pos rfl)
  · exact (m.tail?_add x _ _).trans (if_pos rfl)

variable {F : α → Program α .list}

theorem Made.eq_nil_of_flatMap (h : S.Made (fun _ => .flatMap F .nil) list T) :
    list = .nil := by
  obtain ⟨-, next, stack, m, m', -, heval, -⟩ := h
  exact (evaluates_done.1 (evaluates_flatMap_nil.1 heval)).1

/-- A flattened list is what the function gave for the first element, with what comes of
the other elements behind it. -/
theorem Made.flatMap_link (hS : S.Sound)
    (h : S.Made (fun _ => .flatMap F (.link a)) list T) :
    ∃ x inner, T.memory.head? a = some x ∧ S.Gave (F x) inner T
      ∧ S.Made (fun _ => .concat inner (Program.flatTail F a)) list T := by
  obtain ⟨kind, next, stack, m, m', hreaches, heval, hrest⟩ := h
  obtain ⟨x, inner, m₁, hx, hF, hconcat⟩ := evaluates_flatMap_link.1 heval
  have hrest₁ := (reaches_of_moves (hconcat.concat_moves next stack)).trans hrest
  obtain ⟨hgave, hreaches₁⟩ :=
    Gave.of_call (Program.turn_flatMap_link next F hx) hF hreaches hrest₁
  have hcalled := hF.grows.1.trans (Reaches.grows hS hreaches₁ hrest₁)
  exact ⟨x, inner, hcalled.head hx, hgave, kind, next, stack, m₁, m', hreaches₁, hconcat, hrest⟩

/-- What stands behind a flattened part comes of the tail of the source. -/
theorem Gave.of_flatTail (hS : S.Sound) (h : S.Gave (Program.flatTail F a) list T) :
    ∃ source, T.memory.tail? a = some (.ready source)
      ∧ S.Made (fun _ => .flatMap F source) list T := by
  obtain ⟨source, ha, hgave⟩ := Gave.of_tail hS h
  exact ⟨source, ha, Made.of_gave hgave⟩

end Made

/-! ### Contents -/

section Contents

variable {source list : LazyList} {A : Stream'.Seq α}

/-- What is known of a mapped list are the mapped elements of its source. -/
theorem Made.agrees_map (hS : S.Sound) {f : α → Program α .element} {g : α → α}
    (hg : ∀ x y, S.Gave (f x) y T → y = g x)
    (h : S.Made (fun _ => .map f source) list T) (hA : T.memory.Agrees source A) :
    T.memory.Agrees list (A.map g) := by
  refine Memory.Agrees.of_step (R := fun list B => ∃ source A,
    S.Made (fun _ => .map f source) list T ∧ T.memory.Agrees source A ∧ B = A.map g) ?_
    ⟨source, A, h, hA, rfl⟩
  rintro list _ ⟨source, A, h, hA, rfl⟩
  cases source with
  | nil =>
    left
    rw [h.eq_nil_of_map, hA.eq_nil, Stream'.Seq.map_nil]
    exact Memory.agrees_nil _
  | link a =>
    right
    obtain ⟨b, x, y, rfl, ha, hb, hgave, hwaits⟩ := h.map_link hS
    obtain ⟨A', rfl, htail⟩ := hA.exists_cons ha
    obtain rfl := hg x y hgave
    refine ⟨b, g x, A'.map g, rfl, Stream'.Seq.map_cons .., hb, fun list' hb' => ?_⟩
    obtain ⟨source', ha', hgave'⟩ := hwaits.gave hS hb'
    exact ⟨source', A', .of_gave hgave', htail _ ha', rfl⟩

/-- What is known of a joined list are the elements of its source, and behind them those
of the list that the supplier gave. -/
theorem Made.agrees_concat (hS : S.Sound) {that : Program α .list} {B : Stream'.Seq α}
    (hB : ∀ list, S.Gave that list T → T.memory.Agrees list B)
    (h : S.Made (fun _ => .concat source that) list T) (hA : T.memory.Agrees source A) :
    T.memory.Agrees list (A.append B) := by
  refine Memory.Agrees.of_step (R := fun list C => ∃ source A,
    S.Made (fun _ => .concat source that) list T ∧ T.memory.Agrees source A
      ∧ C = A.append B) ?_ ⟨source, A, h, hA, rfl⟩
  rintro list _ ⟨source, A, h, hA, rfl⟩
  cases source with
  | nil =>
    left
    rw [hA.eq_nil, Stream'.Seq.nil_append]
    exact hB list h.gave_of_concat
  | link a =>
    right
    obtain ⟨b, x, rfl, ha, hb, hwaits⟩ := h.concat_link hS
    obtain ⟨A', rfl, htail⟩ := hA.exists_cons ha
    refine ⟨b, x, A'.append B, rfl, Stream'.Seq.cons_append .., hb, fun list' hb' => ?_⟩
    obtain ⟨source', ha', hgave⟩ := hwaits.gave hS hb'
    exact ⟨source', A', .of_gave hgave,
      htail _ ha', rfl⟩

variable {F : α → Program α .list} {G : α → Stream'.Seq1 α}

/-- A flattened list, or what is left of one: the rest of an element's list, and behind it
what comes of the elements after this one. -/
inductive Flattening (S T : Session α) (F : α → Program α .list) (G : α → Stream'.Seq1 α) :
    LazyList → Stream'.Seq α → Prop
  | start {source list : LazyList} {A : Stream'.Seq α}
      (made : S.Made (fun _ => .flatMap F source) list T)
      (agrees : T.memory.Agrees source A) : Flattening S T F G list (A.map G).join
  | rest {inner list : LazyList} {a : Nat} {U A : Stream'.Seq α}
      (made : S.Made (fun _ => .concat inner (Program.flatTail F a)) list T)
      (agrees : T.memory.Agrees inner U)
      (behind : ∀ source, T.memory.tail? a = some (.ready source) →
        T.memory.Agrees source A) : Flattening S T F G list (U.append (A.map G).join)

theorem Flattening.of_link (hS : S.Sound) {u a : Nat} {U : Stream'.Seq α}
    (h : S.Made (fun _ => .concat (.link u) (Program.flatTail F a)) list T)
    (hU : T.memory.Agrees (.link u) U)
    (hA : ∀ source, T.memory.tail? a = some (.ready source) → T.memory.Agrees source A) :
    ∃ b y B', list = .link b ∧ U.append (A.map G).join = .cons y B'
      ∧ T.memory.head? b = some y
      ∧ ∀ list', T.memory.tail? b = some (.ready list') → S.Flattening T F G list' B' := by
  obtain ⟨b, y, rfl, hu, hb, hwaits⟩ := h.concat_link hS
  obtain ⟨U', rfl, htail⟩ := hU.exists_cons hu
  refine ⟨b, y, _, rfl, Stream'.Seq.cons_append .., hb, fun list' hb' => ?_⟩
  obtain ⟨inner, hu', hgave⟩ := hwaits.gave hS hb'
  exact .rest (.of_gave hgave) (htail _ hu') hA

/-- The list of the first element is not empty, so a flattened list starts with its
first element. -/
theorem Flattening.of_flatMap (hS : S.Sound)
    (hG : ∀ x inner, S.Gave (F x) inner T → T.memory.Agrees inner (G x).toSeq)
    (h : S.Made (fun _ => .flatMap F source) list T) (hA : T.memory.Agrees source A) :
    T.memory.Agrees list (A.map G).join
      ∨ ∃ b y B', list = .link b ∧ (A.map G).join = .cons y B' ∧ T.memory.head? b = some y
        ∧ ∀ list', T.memory.tail? b = some (.ready list') → S.Flattening T F G list' B' := by
  cases source with
  | nil =>
    left
    rw [h.eq_nil_of_flatMap, hA.eq_nil, Stream'.Seq.map_nil, Stream'.Seq.join_nil]
    exact Memory.agrees_nil _
  | link a =>
    right
    obtain ⟨x, inner, ha, hgave, hmade⟩ := h.flatMap_link hS
    obtain ⟨A', rfl, htail⟩ := hA.exists_cons ha
    have hinner := hG x inner hgave
    cases inner with
    | nil => exact absurd hinner.eq_nil Stream'.Seq.cons_ne_nil
    | link u =>
      have hjoin : ((A'.cons x).map G).join = (G x).toSeq.append (A'.map G).join := by
        rw [Stream'.Seq.map_cons, ← Prod.mk.eta (p := G x), Stream'.Seq.join_cons]
        exact (Stream'.Seq.cons_append ..).symm
      exact hjoin ▸ Flattening.of_link hS hmade hinner htail

/-- What is known of a flattened list are the elements of the lists that the function
gave for the elements of its source. -/
theorem Made.agrees_flatMap (hS : S.Sound)
    (hG : ∀ x inner, S.Gave (F x) inner T → T.memory.Agrees inner (G x).toSeq)
    (h : S.Made (fun _ => .flatMap F source) list T) (hA : T.memory.Agrees source A) :
    T.memory.Agrees list (A.map G).join := by
  refine Memory.Agrees.of_step (R := S.Flattening T F G) ?_ (.start h hA)
  intro list C hC
  cases hC with
  | start hmade hA => exact Flattening.of_flatMap hS hG hmade hA
  | @rest inner _ a U A hmade hU hA =>
    cases inner with
    | nil =>
      -- The list of an element has come to its end, and what follows was asked for.
      obtain ⟨source, ha, hmade⟩ := Gave.of_flatTail hS hmade.gave_of_concat
      rw [hU.eq_nil, Stream'.Seq.nil_append]
      exact Flattening.of_flatMap hS hG hmade (hA source ha)
    | link u => exact .inr (Flattening.of_link hS hmade hU hA)

end Contents

end Session

end LazyGrammar.LazyList

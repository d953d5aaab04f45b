import LazyGrammar.Proofs.LazyList.Contents

/-!
# LazyGrammar.Proofs.LazyList.Demand

**What walking along a list demands.** Asking for the first tails of a mapped or a joined
list asks for the first tails of its source, each once and only if it is not known yet,
and makes of each what the operation makes of a list, and nothing else.

Design points:

* Walking is a request like others (`Program.walk`), so it may come at any moment and
  from any memory. What it demands is a relation that says, tail by tail, what is
  evaluated (`Along`, `AlongFlat`), and the walk answers if and only if this does.
* The tail of a derived link takes the tail of the other link and what is done with it
  (`evaluates_derived`). What is known already is known of both (`Waits.gave`).
-/

namespace LazyGrammar.LazyList

variable {α : Type}

/-! ### Walking -/

/-- Asks for the first tails of a list, one after another, and gives what is left. -/
def Program.walk : Nat → LazyList → Program α .list
  | 0, list => .give list
  | _ + 1, .nil => .give .nil
  | count + 1, .link a => .tail a (walk count)

section Walk

variable {m m' : Memory α} {count a : Nat} {list rest : LazyList}

theorem evaluates_walk_zero :
    Evaluates m (Program.walk 0 list) rest m' ↔ rest = list ∧ m' = m := evaluates_done

theorem evaluates_walk_nil :
    Evaluates m (Program.walk count .nil) rest m' ↔ rest = .nil ∧ m' = m := by
  cases count <;> exact evaluates_done

theorem evaluates_walk_link :
    Evaluates m (Program.walk (count + 1) (.link a)) rest m' ↔ ∃ list m₁,
      Evaluates m (.tail a .give) list m₁
      ∧ Evaluates m₁ (Program.walk count list) rest m' := evaluates_tail_iff

/-- The tails that were asked for are known. -/
theorem Evaluates.after_walk (h : Evaluates m (Program.walk count list) rest m') :
    m'.after count list = some rest := by
  induction count generalizing m list with
  | zero => exact congrArg some (evaluates_walk_zero.1 h).1.symm
  | succ count ih =>
    cases list with
    | nil => exact congrArg some (evaluates_walk_nil.1 h).1.symm
    | link a =>
      obtain ⟨list', m₁, htail, hwalk⟩ := evaluates_walk_link.1 h
      rw [Memory.after_of_ready (hwalk.grows.1.ready htail.tail_known)]
      exact ih hwalk

end Walk

/-- The first tails of a list, as far as they are known. -/
def Memory.tails (m : Memory α) : Nat → LazyList → List LazyList
  | 0, _ => []
  | _ + 1, .nil => []
  | count + 1, .link a =>
    match m.tail? a with
    | some (.ready list) => list :: m.tails count list
    | _ => []

theorem Memory.tails_nil (m : Memory α) (count : Nat) : m.tails count .nil = [] := by
  cases count <;> rfl

theorem Memory.tails_of_ready {m : Memory α} {a : Nat} {list : LazyList}
    (h : m.tail? a = some (.ready list)) (count : Nat) :
    m.tails (count + 1) (.link a) = list :: m.tails count list := by
  simp only [tails, h]

theorem Memory.tails_of_pending {m : Memory α} {a : Nat} {thunk : Thunk α}
    (h : m.tail? a = some (.pending thunk)) (count : Nat) : m.tails count (.link a) = [] := by
  cases count with
  | zero => rfl
  | succ count => simp only [tails, h]

/-- There are as many tails as were asked for, or the list has come to its end. -/
theorem Memory.length_tails {m : Memory α} {count : Nat} {list : LazyList}
    (h : (m.after count list).isSome) :
    (m.tails count list).length = count ∨ m.Ends list (m.tails count list).length := by
  induction count generalizing list with
  | zero => exact .inl rfl
  | succ count ih =>
    cases list with
    | nil => exact .inr m.ends_nil
    | link a =>
      obtain ⟨rest, hrest⟩ := Option.isSome_iff_exists.1 h
      obtain ⟨list, ha, hafter⟩ := ready_of_after hrest
      rw [tails_of_ready ha, List.length_cons]
      obtain hlength | hends := ih (Option.isSome_iff_exists.2 ⟨rest, hafter⟩)
      · exact .inl (congrArg (· + 1) hlength)
      · exact .inr (hends.link ha)

/-- A link that was there before is older than what is made after. -/
theorem Evaluates.lt_fresh {kind : Kind} {m m' : Memory α} {p : Program α kind}
    {x : kind.Answer α} (h : Evaluates m p x m') {b : Nat} {t : TailState α}
    (hb : m.tail? b = some t) : b < m'.fresh :=
  Nat.lt_of_lt_of_le (Memory.lt_fresh_of_tail? hb) h.grows.1.fresh

/-! ### Walking along a derived list -/

/-- A walk along a list whose links wait for the tails of a source, to go on with them:
the tails of the source that were asked for, what is left of the list, and the memory
after it. -/
inductive Along (go : LazyList → Program α .list) :
    Memory α → LazyList → LazyList → Nat → List LazyList → LazyList → Memory α → Prop
  | stop (m : Memory α) (source list : LazyList) : Along go m source list 0 [] list m
  /-- A tail that is known demands nothing. -/
  | known {m m' : Memory α} {a b count : Nat} {source list rest : LazyList}
      {asked : List LazyList} (ha : m.tail? a = some (.ready source))
      (hb : m.tail? b = some (.ready list))
      (walk : Along go m source list count asked rest m') :
      Along go m (.link a) (.link b) (count + 1) asked rest m'
  /-- Any other takes the source's tail and what is made of it, each once. -/
  | demand {m m₁ m₂ m' : Memory α} {a b count : Nat} {source list rest : LazyList}
      {asked : List LazyList} (waits : m.tail? b = some (.pending (.code (.tail a go))))
      (tail : Evaluates m (.tail a .give) source m₁)
      (made : Evaluates (m₁.setTail b .taken) (go source) list m₂)
      (walk : Along go (m₂.setTail b (.ready list)) source list count asked rest m') :
      Along go m (.link a) (.link b) (count + 1) (source :: asked) rest m'
  /-- Behind the end of the source the list is on its own. -/
  | ended {m m' : Memory α} {count : Nat} {list rest : LazyList}
      (walk : Evaluates m (.walk count list) rest m') :
      Along go m .nil list count [] rest m'

/-- Of a link another one is made, which waits for the first one's tail. -/
def Derives (go : LazyList → Program α .list) : Prop :=
  ∀ {m m' : Memory α} {a : Nat} {list : LazyList}, Evaluates m (go (.link a)) list m' →
    ∃ b, list = .link b ∧ m.fresh ≤ b ∧ m'.tail? b = some (.pending (.code (.tail a go)))

theorem derives_map (f : α → Program α .element) :
    Derives fun source => .map f source .give := by
  intro m m' a list h
  obtain ⟨x, y, m₁, hx, hf, hdone⟩ := evaluates_map_link.1 h
  obtain ⟨rfl, rfl⟩ := evaluates_done.1 hdone
  exact ⟨m₁.fresh, rfl, hf.grows.1.fresh, (m₁.tail?_add y _ _).trans (if_pos rfl)⟩

theorem derives_concat (that : Program α .list) :
    Derives fun source => .concat source that .give := by
  intro m m' a list h
  obtain ⟨x, hx, hdone⟩ := evaluates_concat_link.1 h
  obtain ⟨rfl, rfl⟩ := evaluates_done.1 hdone
  exact ⟨m.fresh, rfl, Nat.le_refl _, (m.tail?_add x _ _).trans (if_pos rfl)⟩

namespace Along

variable {go : LazyList → Program α .list} {m m' : Memory α} {source list rest : LazyList}
  {count : Nat} {asked : List LazyList}

/-- What a walk demands is all that it takes. -/
theorem evaluates (h : Along go m source list count asked rest m') :
    Evaluates m (.walk count list) rest m' := by
  induction h with
  | stop m source list => exact evaluates_walk_zero.2 ⟨rfl, rfl⟩
  | known ha hb _ ih =>
    exact evaluates_walk_link.2 ⟨_, _, (evaluates_tail_ready hb).2 (.done _ _), ih⟩
  | demand waits tail made _ ih =>
    exact evaluates_walk_link.2
      ⟨_, _, (evaluates_derived waits).2 ⟨_, _, _, tail, made, rfl⟩, ih⟩
  | ended walk => exact walk

/-- The tail of the source that was asked for is known. -/
theorem ready_of_demand {m₁ m₂ : Memory α} {a b : Nat}
    (waits : m.tail? b = some (.pending (.code (.tail a go))))
    (tail : Evaluates m (.tail a .give) source m₁)
    (made : Evaluates (m₁.setTail b .taken) (go source) list m₂) :
    (m₂.setTail b (.ready list)).tail? a = some (.ready source) := by
  have hne := tail.ne_of_blocked waits (tail.blocked go)
  rw [Memory.tail?_setTail_of_ne hne]
  exact made.grows.1.ready (by rw [Memory.tail?_setTail_of_ne hne, tail.tail_known])

/-- What was just made of a link waits for its tail. -/
theorem pending_of_demand {m₁ m₂ : Memory α} {a a' b : Nat} (hgo : Derives go)
    (waits : m.tail? b = some (.pending (.code (.tail a go))))
    (tail : Evaluates m (.tail a .give) (.link a') m₁)
    (made : Evaluates (m₁.setTail b .taken) (go (.link a')) list m₂) :
    ∃ b', list = .link b'
      ∧ (m₂.setTail b (.ready list)).tail? b' = some (.pending (.code (.tail a' go))) := by
  obtain ⟨b', rfl, hfresh, hpending⟩ := hgo made
  rw [Memory.fresh_setTail] at hfresh
  have hlt := Nat.lt_of_lt_of_le (tail.lt_fresh waits) hfresh
  exact ⟨b', rfl, (Memory.tail?_setTail_of_ne (Nat.ne_of_gt hlt) _).trans hpending⟩

/-- The first tails of the source are known after the walk. -/
theorem after_source (h : Along go m source list count asked rest m') :
    (m'.after count source).isSome := by
  induction h with
  | stop => rfl
  | known ha hb walk ih => rwa [Memory.after_of_ready (walk.evaluates.grows.1.ready ha)]
  | demand waits tail made walk ih =>
    rwa [Memory.after_of_ready
      (walk.evaluates.grows.1.ready (ready_of_demand waits tail made))]
  | ended => simp

/-- The tails of the source that were asked for are those that the list did not have
before. -/
theorem asked_eq (hgo : Derives go) (h : Along go m source list count asked rest m') :
    asked = (m'.tails count source).drop (m.tails count list).length := by
  induction h with
  | stop => rfl
  | known ha hb walk ih =>
    rw [Memory.tails_of_ready (walk.evaluates.grows.1.ready ha), Memory.tails_of_ready hb]
    exact ih
  | @demand m m₁ m₂ m' a b count source list rest asked waits tail made walk ih =>
    have ha := walk.evaluates.grows.1.ready (ready_of_demand waits tail made)
    rw [Memory.tails_of_ready ha, Memory.tails_of_pending waits, ih]
    cases source with
    | nil => simp [Memory.tails_nil]
    | link a' =>
      obtain ⟨b', rfl, hpending⟩ := pending_of_demand hgo waits tail made
      rw [Memory.tails_of_pending hpending]
      rfl
  | ended => simp [Memory.tails_nil]

end Along

/-! ### Walks and sessions -/

namespace Session

/-- A list whose links waited for the tails of a source, to go on with them. -/
inductive Derived (S : Session α) (go : LazyList → Program α .list) (T : Session α) :
    LazyList → LazyList → Prop
  | ended (list : LazyList) : Derived S go T .nil list
  | link {a b : Nat} (waits : S.Waits go a b T) : Derived S go T (.link a) (.link b)

variable {S T : Session α} {go : LazyList → Program α .list} {source list rest : LazyList}

theorem Waits.tail?_cases (hS : S.Sound) {a b : Nat} (h : S.Waits go a b T) :
    (∃ list, T.memory.tail? b = some (.ready list))
      ∨ T.memory.tail? b = some (.pending (.code (.tail a go)))
      ∨ T.memory.tail? b = some .taken := by
  obtain ⟨U, hU, hT, hb⟩ := h
  obtain hpending | htaken | hready := (Reaches.grows hS hU hT).pending hb
  · exact .inr (.inl hpending)
  · exact .inr (.inr htaken)
  · exact .inl hready

theorem Derived.of_gave (hgo : Derives go) (h : S.Gave (go source) list T) :
    S.Derived go T source list := by
  obtain ⟨stack, m, m', hreaches, heval, hrest⟩ := h
  cases source with
  | nil => exact .ended list
  | link a =>
    obtain ⟨b, rfl, -, hpending⟩ := hgo heval
    exact .link ⟨_, hreaches.trans (reaches_of_moves (heval.moves stack)), hrest, hpending⟩

/-- Behind the end of the source stands what is made of nothing. -/
theorem Derived.at_end (hgo : Derives go) (hS : S.Sound) {count : Nat}
    (h : S.Derived go T source list) (hends : T.memory.Ends source count)
    (hrest : T.memory.after count list = some rest) :
    source = .nil ∧ list = rest ∨ S.Gave (go .nil) rest T := by
  induction count generalizing source list with
  | zero => exact .inl ⟨by simpa [Memory.after] using hends.1, by simpa [Memory.after] using hrest⟩
  | succ count ih =>
    cases h with
    | ended => exact absurd rfl (hends.2 0 (Nat.succ_pos _))
    | link waits =>
      obtain ⟨list', hb, hafter⟩ := Memory.ready_of_after hrest
      obtain ⟨source', ha, hgave⟩ := waits.gave hS hb
      obtain ⟨rfl, rfl⟩ | hend := ih (.of_gave hgo hgave) (hends.tail ha) hafter
      · exact .inr hgave
      · exact .inr hend

theorem Derived.along (hgo : Derives go) {count : Nat} {m' : Memory α} (hS : S.Sound)
    (h : S.Derived go T source list) (heval : Evaluates T.memory (.walk count list) rest m') :
    ∃ asked, Along go T.memory source list count asked rest m' := by
  induction count generalizing S T source list with
  | zero =>
    obtain ⟨rfl, rfl⟩ := evaluates_walk_zero.1 heval
    exact ⟨[], .stop _ _ _⟩
  | succ count ih =>
    cases h with
    | ended => exact ⟨[], .ended heval⟩
    | @link a b waits =>
      obtain ⟨list, m₁, htail, hwalk⟩ := evaluates_walk_link.1 heval
      obtain hready | hpending | htaken := waits.tail?_cases hS
      · obtain ⟨list', hb⟩ := hready
        obtain ⟨rfl, rfl⟩ := evaluates_done.1 ((evaluates_tail_ready hb).1 htail)
        obtain ⟨source, ha, hgave⟩ := waits.gave hS hb
        obtain ⟨asked, halong⟩ := ih hS (.of_gave hgo hgave) hwalk
        exact ⟨asked, .known ha hb halong⟩
      · obtain ⟨source, m₂, m₃, hsource, hmade, rfl⟩ := (evaluates_derived hpending).1 htail
        have hderived : (Session.rest (m₃.setTail b (.ready list))).Derived go
            (.rest (m₃.setTail b (.ready list))) source list := by
          cases source with
          | nil => exact .ended list
          | link a' =>
            obtain ⟨b', rfl, hb'⟩ := Along.pending_of_demand hgo hpending hsource hmade
            exact .link ⟨_, .refl, .refl, hb'⟩
        obtain ⟨asked, halong⟩ := ih (S := .rest _) trivial hderived hwalk
        exact ⟨source :: asked, .demand hpending hsource hmade halong⟩
      · exact absurd htail (not_evaluates_tail_taken htaken)

/-- A walk along a derived list takes what it demands of the source, and nothing else. -/
theorem Derived.walk_iff (hgo : Derives go) (hS : S.Sound) (h : S.Derived go T source list)
    {count : Nat} {m' : Memory α} :
    Evaluates T.memory (.walk count list) rest m' ↔ Along go T.memory source list count
      ((m'.tails count source).drop (T.memory.tails count list).length) rest m' := by
  refine ⟨fun heval => ?_, Along.evaluates⟩
  obtain ⟨asked, halong⟩ := h.along hgo hS heval
  exact halong.asked_eq hgo ▸ halong

end Session

/-- What walking along a list demands of the source that it is made of. -/
structure Memory.Demands (m : Memory α) (go : LazyList → Program α .list)
    (source list : LazyList) : Prop where
  /-- The tails of the source beyond those that the list has already, each once. -/
  walk : ∀ count rest m', Evaluates m (.walk count list) rest m' ↔
    Along go m source list count
      ((m'.tails count source).drop (m.tails count list).length) rest m'
  /-- As many of them as were asked for, or all that there are. -/
  many : ∀ count rest m', Evaluates m (.walk count list) rest m' →
    m'.after count list = some rest
      ∧ ((m'.tails count source).length = count
        ∨ m'.Ends source (m'.tails count source).length)

theorem Session.Derived.demands {S T : Session α} {go : LazyList → Program α .list}
    (hgo : Derives go) (hS : S.Sound) {source list : LazyList}
    (h : S.Derived go T source list) : T.memory.Demands go source list where
  walk _ _ _ := h.walk_iff hgo hS
  many _ _ _ heval :=
    ⟨heval.after_walk, Memory.length_tails ((h.walk_iff hgo hS).1 heval).after_source⟩

/-! ### Walking along a flattened list -/

/-- A walk along a list that was flattened: what is left of the list, and the memory after
it. A link of the list waits for the tail of a link `u` of some element's list; `a` is the
link of this element in the source. -/
inductive AlongFlat (f : α → Program α .list) :
    Memory α → LazyList → Nat → LazyList → Memory α → Prop
  | stop (m : Memory α) (list : LazyList) : AlongFlat f m list 0 list m
  | ended (m : Memory α) (count : Nat) : AlongFlat f m .nil count .nil m
  /-- A tail that is known demands nothing. -/
  | known {m m' : Memory α} {b count : Nat} {list rest : LazyList}
      (hb : m.tail? b = some (.ready list)) (walk : AlongFlat f m list count rest m') :
      AlongFlat f m (.link b) (count + 1) rest m'
  /-- Within the list of an element its next tail is asked for, and nothing else. -/
  | within {m m₁ m₂ m' : Memory α} {a b u u' count : Nat} {list rest : LazyList}
      (waits : m.tail? b = some (.pending (.code (.concatTail (.flatTail f a) u))))
      (inner : Evaluates m (.tail u .give) (.link u') m₁)
      (made : Evaluates (m₁.setTail b .taken)
        (.concat (.link u') (.flatTail f a) .give) list m₂)
      (walk : AlongFlat f (m₂.setTail b (.ready list)) list count rest m') :
      AlongFlat f m (.link b) (count + 1) rest m'
  /-- At its end the source's tail is asked for as well. That flattened is the rest. -/
  | next {m m₁ m₂ m₃ m' : Memory α} {a b u count : Nat} {source list rest : LazyList}
      (waits : m.tail? b = some (.pending (.code (.concatTail (.flatTail f a) u))))
      (inner : Evaluates m (.tail u .give) .nil m₁)
      (outer : Evaluates (m₁.setTail b .taken) (.tail a .give) source m₂)
      (made : Evaluates m₂ (.flatMap f source .give) list m₃)
      (walk : AlongFlat f (m₃.setTail b (.ready list)) list count rest m') :
      AlongFlat f m (.link b) (count + 1) rest m'

theorem AlongFlat.evaluates {f : α → Program α .list} {m m' : Memory α}
    {list rest : LazyList} {count : Nat} (h : AlongFlat f m list count rest m') :
    Evaluates m (.walk count list) rest m' := by
  induction h with
  | stop m list => exact evaluates_walk_zero.2 ⟨rfl, rfl⟩
  | ended m count => exact evaluates_walk_nil.2 ⟨rfl, rfl⟩
  | known hb _ ih =>
    exact evaluates_walk_link.2 ⟨_, _, (evaluates_tail_ready hb).2 (.done _ _), ih⟩
  | within waits inner made _ ih =>
    exact evaluates_walk_link.2
      ⟨_, _, (evaluates_derived waits).2 ⟨_, _, _, inner, made, rfl⟩, ih⟩
  | next waits inner outer made _ ih =>
    have hsupplied : Evaluates _ (.flatTail f _) _ _ :=
      evaluates_tail_iff.2 ⟨_, _, outer, made⟩
    have hmade : Evaluates _ (.concat .nil (.flatTail f _) .give) _ _ :=
      evaluates_concat_nil.2 ⟨_, _, hsupplied, .done _ _⟩
    exact evaluates_walk_link.2
      ⟨_, _, (evaluates_derived waits).2 ⟨_, _, _, inner, hmade, rfl⟩, ih⟩

/-- The lists that a function gives are not empty. -/
def NeverNil (f : α → Program α .list) : Prop := ∀ x m m', ¬ Evaluates m (f x) .nil m'

/-- What is left of a flattened list: nothing, or a link that stands for an element of the
list that the function gave for an element of the source. It waited for the tail there. -/
inductive Session.Stands (S : Session α) (f : α → Program α .list) (source : LazyList)
    (T : Session α) : LazyList → Prop
  | ended : Stands S f source T .nil
  | link {i k a u b : Nat} {x : α} {inner : LazyList}
      (element : T.memory.after i source = some (.link a))
      (head : T.memory.head? a = some x) (gave : S.Gave (f x) inner T)
      (place : T.memory.after k inner = some (.link u))
      (waits : S.Waits (fun left => .concat left (.flatTail f a) .give) u b T) :
      Stands S f source T (.link b)

namespace Session.Stands

variable {S T : Session α} {f : α → Program α .list} {source left list rest : LazyList}

theorem of_flatMap (hS : S.Sound) (hf : NeverNil f) {i : Nat}
    (hleft : T.memory.after i source = some left)
    (h : S.Made (fun _ => .flatMap f left) list T) : S.Stands f source T list := by
  cases left with
  | nil => exact h.eq_nil_of_flatMap ▸ .ended
  | link a =>
    obtain ⟨x, inner, hx, hgave, hmade⟩ := h.flatMap_link hS
    cases inner with
    | nil =>
      obtain ⟨stack, m, m', -, heval, -⟩ := hgave
      exact absurd heval (hf x m m')
    | link u =>
      obtain ⟨b, y, rfl, -, -, waits⟩ := hmade.concat_link hS
      exact .link (k := 0) hleft hx hgave rfl waits

theorem later {U : Session α} (hT : T.Sound) (h : S.Stands f source T list)
    (hU : T.Reaches U) : S.Stands f source U list := by
  have hgrows := (hU.sound hT).2
  cases h with
  | ended => exact .ended
  | link element head gave place waits =>
    exact .link (hgrows.after element) (hgrows.head head) (gave.later hU) (hgrows.after place)
      (waits.later hU)

theorem of_made (hS : S.Sound) (hf : NeverNil f)
    (h : S.Made (fun _ => .flatMap f source) list T) : S.Stands f source T list :=
  of_flatMap (i := 0) hS hf rfl h

theorem tail (hS : S.Sound) (hf : NeverNil f) {b : Nat} (h : S.Stands f source T (.link b))
    (hb : T.memory.tail? b = some (.ready list)) : S.Stands f source T list := by
  cases h with
  | link element head gave place waits =>
    obtain ⟨left, hu, hgave⟩ := waits.gave hS hb
    cases left with
    | link u' =>
      obtain ⟨b', y, rfl, -, -, waits'⟩ := (Made.of_gave hgave).concat_link hS
      exact .link element head gave (Memory.after_succ place hu) waits'
    | nil =>
      -- The list of this element has come to its end.
      obtain ⟨left, ha, hmade⟩ := Gave.of_flatTail hS (Made.of_gave hgave).gave_of_concat
      exact of_flatMap hS hf (Memory.after_succ element ha) hmade

/-- Whatever is left of a flattened list stands for an element. -/
theorem of_after (hS : S.Sound) (hf : NeverNil f) {count : Nat}
    (h : S.Stands f source T list) (hrest : T.memory.after count list = some rest) :
    S.Stands f source T rest := by
  induction count generalizing list with
  | zero =>
    cases hrest
    exact h
  | succ count ih =>
    cases list with
    | nil =>
      obtain rfl : rest = .nil := by simpa using hrest.symm
      exact .ended
    | link b =>
      obtain ⟨list', hb, hafter⟩ := Memory.ready_of_after hrest
      exact ih (h.tail hS hf hb) hafter

end Session.Stands

/-- The tails of a list that are still to be computed wait for those of an element's
list. -/
def Memory.Flat (m : Memory α) (f : α → Program α .list) (list : LazyList) : Prop :=
  ∀ count b thunk, m.after count list = some (.link b) →
    m.tail? b = some (.pending thunk) →
    ∃ a u, thunk = .code (.concatTail (.flatTail f a) u)

namespace Memory.Flat

variable {m : Memory α} {f : α → Program α .list}

theorem of_nil (m : Memory α) (f : α → Program α .list) : m.Flat f .nil := by
  intro count b thunk hb
  simp at hb

theorem of_pending {a b u : Nat}
    (hb : m.tail? b = some (.pending (.code (.concatTail (.flatTail f a) u)))) :
    m.Flat f (.link b) := by
  intro count c thunk hafter hc
  cases count with
  | zero =>
    cases hafter
    cases hb.symm.trans hc
    exact ⟨a, u, rfl⟩
  | succ count =>
    obtain ⟨list, hready, -⟩ := ready_of_after hafter
    cases hb.symm.trans hready

theorem tail {b : Nat} {list : LazyList} (h : m.Flat f (.link b))
    (hb : m.tail? b = some (.ready list)) : m.Flat f list :=
  fun count c thunk hafter => h (count + 1) c thunk ((after_of_ready hb count).trans hafter)

theorem of_stands {S T : Session α} (hS : S.Sound) (hf : NeverNil f)
    {source list : LazyList} (h : S.Stands f source T list) : T.memory.Flat f list := by
  intro count b thunk hafter hb
  cases h.of_after hS hf hafter with
  | @link _ _ a u _ _ _ _ _ _ _ waits =>
    obtain ⟨list', hready⟩ | hpending | htaken := waits.tail?_cases hS
    · cases hready.symm.trans hb
    · cases hpending.symm.trans hb
      exact ⟨a, u, rfl⟩
    · cases htaken.symm.trans hb

end Memory.Flat

/-- What is flattened is nothing, or a link that waits for the tail of an element's
list. -/
theorem Evaluates.waits_of_flatMap {f : α → Program α .list} (hf : NeverNil f)
    {m m' : Memory α} {source list : LazyList}
    (h : Evaluates m (.flatMap f source .give) list m') :
    list = .nil ∨ ∃ a b u, list = .link b ∧ m.fresh ≤ b
      ∧ m'.tail? b = some (.pending (.code (.concatTail (.flatTail f a) u))) := by
  cases source with
  | nil => exact .inl (evaluates_done.1 (evaluates_flatMap_nil.1 h)).1
  | link a =>
    obtain ⟨x, inner, m₁, -, hx, hconcat⟩ := evaluates_flatMap_link.1 h
    cases inner with
    | nil => exact absurd hx (hf x m m₁)
    | link u =>
      obtain ⟨b, rfl, hfresh, hb⟩ := derives_concat _ hconcat
      exact .inr ⟨a, b, u, rfl, Nat.le_trans hx.grows.1.fresh hfresh, hb⟩

theorem AlongFlat.of_evaluates {f : α → Program α .list} (hf : NeverNil f)
    {m m' : Memory α} {list rest : LazyList} {count : Nat} (hflat : m.Flat f list)
    (h : Evaluates m (.walk count list) rest m') : AlongFlat f m list count rest m' := by
  induction count generalizing m list with
  | zero =>
    obtain ⟨rfl, rfl⟩ := evaluates_walk_zero.1 h
    exact .stop _ _
  | succ count ih =>
    cases list with
    | nil =>
      obtain ⟨rfl, rfl⟩ := evaluates_walk_nil.1 h
      exact .ended _ _
    | link b =>
      obtain ⟨list, m₁, htail, hwalk⟩ := evaluates_walk_link.1 h
      obtain ⟨list', hb⟩ | ⟨thunk, hb⟩ := htail.ready_or_pending
      · obtain ⟨rfl, rfl⟩ := evaluates_done.1 ((evaluates_tail_ready hb).1 htail)
        exact .known hb (ih (hflat.tail hb) hwalk)
      obtain ⟨a, u, rfl⟩ := hflat 0 b thunk rfl hb
      obtain ⟨inner, m₂, m₃, hinner, hmade, rfl⟩ := (evaluates_derived hb).1 htail
      have hlt : b < (m₂.setTail b .taken).fresh := by
        rw [Memory.fresh_setTail]
        exact hinner.lt_fresh hb
      cases inner with
      | link u' =>
        obtain ⟨b', rfl, hfresh, hb'⟩ := derives_concat _ hmade
        have hne := Nat.ne_of_gt (Nat.lt_of_lt_of_le hlt hfresh)
        have hpending := Memory.tail?_setTail_of_ne (m := m₃) hne (.ready (.link b'))
        exact .within hb hinner hmade (ih (.of_pending (hpending.trans hb')) hwalk)
      | nil =>
        obtain ⟨list₁, m₄, hsupplied, hdone⟩ := evaluates_concat_nil.1 hmade
        obtain ⟨rfl, rfl⟩ := evaluates_done.1 hdone
        obtain ⟨source, m₅, houter, hflatMap⟩ := evaluates_tail_iff.1 hsupplied
        refine .next hb hinner houter hflatMap (ih ?_ hwalk)
        obtain rfl | ⟨a', b', u', rfl, hfresh, hb'⟩ := hflatMap.waits_of_flatMap hf
        · exact .of_nil _ f
        · have hlt' := Nat.lt_of_lt_of_le hlt (Nat.le_trans houter.grows.1.fresh hfresh)
          exact .of_pending ((Memory.tail?_setTail_of_ne (Nat.ne_of_gt hlt') _).trans hb')

end LazyGrammar.LazyList

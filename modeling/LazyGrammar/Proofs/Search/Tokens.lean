import LazyGrammar.Proofs.LazyList.Contents
import LazyGrammar.Proofs.Search.Bounds

/-!
# LazyGrammar.Proofs.Search.Tokens

**The tokens of a search as a lazy list.** A search only counts its requests
(`State.demand`). The tokens are the elements of a lazy list, whose iterator is asked for the
first one when the list is made and for another one when a tail is needed that is not known
yet. A search needs a tail where it takes a token, so its count is what the iterator has been
asked.

Design points:

* `Drawn` says of a list how far its iterator has been asked. A tail that lies within that is
  known, and only the tail of the last link asks the iterator (`Drawn.exists_tail`).
* The tails that a search needs are listed by the tokens that it takes (`taken`), on whatever
  branch, in the order of the search (`Draws`). Some of them are needed many times.
-/

namespace LazyGrammar

variable {τ α σ : Type}

open LazyList (Memory Program Evaluates evaluates_tail_ready)

/-- What an iterator over the tokens of a source does when it is asked: it takes notes, and
gives the next token. -/
def Source.asking (src : Source τ) (notes : Nat → List String) (asked : Nat) : Program τ .item :=
  .note (notes asked) (.done (src.token asked))

/-- The notes of the questions from one number of them to another. -/
def questions (notes : Nat → List String) (asked demand : Nat) : List String :=
  (List.range' asked (demand - asked)).flatMap notes

/-- A list of the tokens of a source from an index on, whose iterator has been asked so many
times. -/
inductive Drawn (src : Source τ) (notes : Nat → List String) (m : Memory τ) (demand : Nat) :
    Nat → LazyList → Prop
  | ended {i : Nat} (htoken : src.token i = none) (hdemand : demand = i + 1) :
      Drawn src notes m demand i .nil
  | waiting {i a name : Nat} {x : τ} (htoken : src.token i = some x) (hhead : m.head? a = some x)
      (htail : m.tail? a = some (.pending (.pull ⟨name, src.asking notes, i + 1⟩)))
      (hdemand : demand = i + 1) : Drawn src notes m demand i (.link a)
  | known {i a : Nat} {x : τ} {rest : LazyList} (htoken : src.token i = some x)
      (hhead : m.head? a = some x) (htail : m.tail? a = some (.ready rest))
      (hrest : Drawn src notes m demand (i + 1) rest) : Drawn src notes m demand i (.link a)

/-- Tails of a list are needed one after another: the tails of the links after which there are
so many tokens. -/
inductive Draws (list : LazyList) : List Nat → Memory τ → Memory τ → Prop
  | nil (m : Memory τ) : Draws list [] m m
  | cons {n a : Nat} {ns : List Nat} {rest : LazyList} {m m₁ m' : Memory τ}
      (hlink : m.after n list = some (.link a)) (htail : Evaluates m (.tail a .give) rest m₁)
      (later : Draws list ns m₁ m') : Draws list ((n + 1) :: ns) m m'

variable {src : Source τ} {notes : Nat → List String} {m m' : Memory τ} {list : LazyList}
  {demand i k : Nat}

/-! ### The list -/

theorem questions_self (notes : Nat → List String) (d : Nat) : questions notes d d = [] := by
  simp [questions]

theorem questions_succ (notes : Nat → List String) (d : Nat) :
    questions notes d (d + 1) = notes d := by
  simp [questions]

theorem questions_append (notes : Nat → List String) {d₁ d₂ d₃ : Nat} (h : d₁ ≤ d₂)
    (h' : d₂ ≤ d₃) : questions notes d₁ d₂ ++ questions notes d₂ d₃ = questions notes d₁ d₃ := by
  have hsplit := List.range'_append_1 (s := d₁) (m := d₂ - d₁) (n := d₃ - d₂)
  have hsum : d₂ - d₁ + (d₃ - d₂) = d₃ - d₁ := by omega
  rw [Nat.add_sub_of_le h, hsum] at hsplit
  rw [questions, questions, ← List.flatMap_append, hsplit, questions]

/-- Notes that are taken at some questions and then at the next ones. -/
theorem append_questions (l : Array String) (notes : Nat → List String) {d₁ d₂ d₃ : Nat}
    (h : d₁ ≤ d₂) (h' : d₂ ≤ d₃) :
    l ++ (questions notes d₁ d₂).toArray ++ (questions notes d₂ d₃).toArray
      = l ++ (questions notes d₁ d₃).toArray := by
  simp [← questions_append notes h h']

theorem Drawn.lt (h : Drawn src notes m demand i list) : i < demand := by
  induction h with
  | ended _ hdemand => omega
  | waiting _ _ _ hdemand => omega
  | known _ _ _ _ ih => omega

/-- The iterator is asked for one more token: it becomes the head of a new link, or the list
ends. -/
theorem exists_pull {a name : Nat} {x : τ} (htoken : src.token i = some x)
    (hhead : m.head? a = some x)
    (htail : m.tail? a = some (.pending (.pull ⟨name, src.asking notes, i + 1⟩))) :
    ∃ rest m', Evaluates m (.tail a .give) rest m' ∧
      Drawn src notes m' (i + 2) i (.link a) ∧
      m'.notes = m.notes ++ (notes (i + 1)).toArray := by
  let m₁ := (m.setTail a .taken).note (notes (i + 1))
  have htail₁ : m₁.tail? a = some .taken := Memory.tail?_setTail_of_eq htail .taken
  have hhead₁ : m₁.head? a = some x := (Memory.head?_setTail ..).trans hhead
  have hasked : Evaluates (m.setTail a .taken) (src.asking notes (i + 1))
      (src.token (i + 1)) m₁ := .go rfl (.done m₁ _)
  have hcall := Program.turn_tail_pull .give htail
  cases hnext : src.token (i + 1) with
  | none =>
      rw [hnext] at hasked
      refine ⟨_, _, .call hcall hasked (.done _ _), ?_, rfl⟩
      refine .known htoken ((Memory.head?_setTail ..).trans hhead₁)
        (Memory.tail?_setTail_of_eq htail₁ _) (.ended hnext rfl)
  | some y =>
      rw [hnext] at hasked
      let it : LazyList.Iterator τ := ⟨name, src.asking notes, i + 2⟩
      let m₂ := m₁.add y (.pending (.pull it))
      have hne : a ≠ m₁.fresh := (Memory.lt_fresh_of_tail? htail₁).ne
      have htail₂ : m₂.tail? a = some .taken := by
        rw [Memory.tail?_add, if_neg hne, htail₁]
      have hhead₂ : m₂.head? a = some x := by
        rw [Memory.head?_add, if_neg hne, hhead₁]
      have hnew : (m₂.setTail a (.ready (.link m₁.fresh))).tail? m₁.fresh
          = some (.pending (.pull it)) := by
        rw [Memory.tail?_setTail_of_ne hne.symm, Memory.tail?_add, if_pos rfl]
      have hfirst : (m₂.setTail a (.ready (.link m₁.fresh))).head? m₁.fresh = some y := by
        rw [Memory.head?_setTail, Memory.head?_add, if_pos rfl]
      refine ⟨_, _, .call hcall hasked (.done _ _), ?_, rfl⟩
      exact .known htoken ((Memory.head?_setTail ..).trans hhead₂)
        (Memory.tail?_setTail_of_eq htail₂ _) (.waiting hnext hfirst hnew rfl)

/-- **Only the tail of the last link asks the iterator.** Where a token is within what has been
asked for, its link is known; its tail is known as well, or the iterator is asked once. -/
theorem Drawn.exists_tail {x : τ} (h : Drawn src notes m demand i list) (hk : i + k < demand)
    (hx : src.token (i + k) = some x) :
    ∃ a rest m', m.after k list = some (.link a) ∧ m.head? a = some x ∧
      Evaluates m (.tail a .give) rest m' ∧
      Drawn src notes m' (max demand (i + k + 2)) i list ∧
      (i + k + 1 < demand → m' = m) ∧
      m'.notes = m.notes ++ (questions notes demand (max demand (i + k + 2))).toArray := by
  induction h generalizing k with
  | @ended i htoken hdemand =>
      obtain rfl : k = 0 := by omega
      rw [Nat.add_zero, htoken] at hx
      cases hx
  | @waiting i a name y htoken hhead htail hdemand =>
      obtain rfl : k = 0 := by omega
      obtain ⟨rest, m', heval, hdrawn, hnotes⟩ := exists_pull htoken hhead htail
      obtain rfl : y = x := Option.some.inj (htoken.symm.trans hx)
      have hmax : max demand (i + 2) = demand + 1 := by omega
      refine ⟨a, rest, m', rfl, hhead, heval, ?_, fun hlt => ?_, ?_⟩
      · rw [Nat.add_zero, hmax, hdemand]
        exact hdrawn
      · omega
      · rw [Nat.add_zero, hmax, questions_succ, hdemand]
        exact hnotes
  | @known i a y rest htoken hhead htail hrest ih =>
      cases k with
      | zero =>
          obtain rfl : y = x := Option.some.inj (htoken.symm.trans hx)
          have hmax : max demand (i + 2) = demand := Nat.max_eq_left hrest.lt
          refine ⟨a, rest, m, rfl, hhead, (evaluates_tail_ready htail).2 (.done m _), ?_,
            fun _ => rfl, ?_⟩
          · rw [Nat.add_zero, hmax]
            exact .known htoken hhead htail hrest
          · rw [Nat.add_zero, hmax, questions_self]
            simp
      | succ k =>
          have hsum : i + 1 + k = i + (k + 1) := by omega
          obtain ⟨b, rest', m', hafter, hhead', heval, hdrawn, hsame, hnotes⟩ :=
            ih (hsum ▸ hk) (hsum ▸ hx)
          rw [hsum] at hdrawn hsame hnotes
          have hgrows := heval.grows.1
          exact ⟨b, rest', m', (LazyList.Memory.after_of_ready htail k).trans hafter, hhead',
            heval, .known htoken (hgrows.head hhead) (hgrows.ready htail) hdrawn, hsame, hnotes⟩

/-- A list that is made of the tokens has asked for the first one. -/
theorem exists_drawn (src : Source τ) (notes : Nat → List String) (m : Memory τ) :
    ∃ list m', Evaluates m (.lazy (src.asking notes) .give) list m' ∧
      Drawn src notes m' 1 0 list ∧ m'.notes = m.notes ++ (questions notes 0 1).toArray := by
  let m₁ := m.openIterator.note (notes 0)
  have hasked : Evaluates m.openIterator (src.asking notes 0) (src.token 0) m₁ :=
    .go rfl (.done m₁ _)
  rw [questions_succ]
  cases hnext : src.token 0 with
  | none =>
      rw [hnext] at hasked
      exact ⟨_, _, .call rfl hasked (.done _ _), .ended hnext rfl, rfl⟩
  | some x =>
      rw [hnext] at hasked
      let it : LazyList.Iterator τ := ⟨m.iterators, src.asking notes, 1⟩
      have hnew : (m₁.add x (.pending (.pull it))).tail? m₁.fresh = some (.pending (.pull it)) :=
        (Memory.tail?_add ..).trans (if_pos rfl)
      have hfirst : (m₁.add x (.pending (.pull it))).head? m₁.fresh = some x :=
        (Memory.head?_add ..).trans (if_pos rfl)
      exact ⟨_, _, .call rfl hasked (.done _ _), .waiting hnext hfirst hnew rfl, rfl⟩

theorem Draws.append {ns ns' : List Nat} {m'' : Memory τ} (h : Draws list ns m m')
    (h' : Draws list ns' m' m'') : Draws list (ns ++ ns') m m'' := by
  induction h with
  | nil => exact h'
  | cons hlink htail _ ih => exact .cons hlink htail (ih h')

/-! ### Searches -/

variable {g : Grammar τ α σ} {s s' t : State τ α}

/-- A token that is taken is one that the source has been asked for. -/
theorem Moment.taken?_eq_some {n : Nat} (hs : s.InReach)
    (h : (⟨g, s⟩ : Moment τ α σ).taken? src = some n) :
    ∃ i x, n = i + 1 ∧ i < s.demand ∧ src.token i = some x := by
  unfold Moment.taken? at h
  split at h
  · next rule place crumbs hcontrol =>
    dsimp only at hcontrol
    have hplace := hs.control
    rw [hcontrol] at hplace
    obtain ⟨node, -, h⟩ := Option.bind_eq_some_iff.1 h
    split at h
    · cases h
    · unfold Form.taken? at h
      split at h
      · split at h
        · next haccept =>
          cases h
          obtain ⟨x, hx, -⟩ := Option.map_eq_some_iff.1 haccept
          exact ⟨place.next, x, congrArg (· + 1) hplace.1, hplace.2, hx⟩
        · cases h
      · cases h
  · cases h

theorem State.InReach.demand_eq {n : Nat} (hs : s.InReach)
    (hstep : Machine.step g src s = .next s')
    (htaken : (⟨g, s⟩ : Moment τ α σ).taken? src = some n) : s'.demand = max s.demand (n + 1) := by
  obtain ⟨i, -, rfl, hlt, -⟩ := Moment.taken?_eq_some hs htaken
  refine eq_of_forall_lt_iff fun c => ?_
  rw [Machine.step_demand hs hstep, htaken, Option.some.injEq]
  omega

theorem State.InReach.demand_eq_self (hs : s.InReach) (hstep : Machine.step g src s = .next s')
    (htaken : (⟨g, s⟩ : Moment τ α σ).taken? src = none) : s'.demand = s.demand := by
  refine eq_of_forall_lt_iff fun c => ?_
  rw [Machine.step_demand hs hstep, htaken]
  simp

/-- **A step needs a tail of the token list exactly where it takes a token**, and the iterator
has then been asked as often as the search counts. -/
theorem State.InReach.draws (hs : s.InReach) (hstep : Machine.step g src s = .next s')
    (hdrawn : Drawn src notes m s.demand 0 list) :
    ∃ m', Draws list (taken src [(⟨g, s⟩ : Moment τ α σ)]) m m' ∧
      Drawn src notes m' s'.demand 0 list ∧
      m'.notes = m.notes ++ (questions notes s.demand s'.demand).toArray := by
  cases htaken : (⟨g, s⟩ : Moment τ α σ).taken? src with
  | none =>
      rw [hs.demand_eq_self hstep htaken, questions_self]
      exact ⟨m, by simpa [taken, htaken] using Draws.nil m, hdrawn, by simp⟩
  | some n =>
      have hdemand := hs.demand_eq hstep htaken
      obtain ⟨i, x, rfl, hlt, hx⟩ := Moment.taken?_eq_some hs htaken
      obtain ⟨a, rest, m', hafter, -, heval, hdrawn', -, hnotes⟩ :=
        hdrawn.exists_tail (k := i) (by simpa using hlt) (by simpa using hx)
      rw [Nat.zero_add, ← hdemand] at hdrawn' hnotes
      refine ⟨m', ?_, hdrawn', hnotes⟩
      simpa [taken, htaken] using Draws.cons hafter heval (.nil m')

/-- **The count of a search is what the iterator behind its tokens has been asked.** A search
needs the tails of its token list one after another, one for each token that it takes; after
that the iterator has been asked as often as the search has counted, for each token once. -/
theorem Unfolds.draws {gs : List (Grammar τ α σ)} {visited : List (Moment τ α σ)}
    {seen : List (Sighting τ α)} {ended : Bool} (h : Unfolds src gs s visited seen ended t)
    (hs : s.InReach) (hdrawn : Drawn src notes m s.demand 0 list) :
    ∃ m', Draws list (taken src visited) m m' ∧ Drawn src notes m' t.demand 0 list ∧
      m'.notes = m.notes ++ (questions notes s.demand t.demand).toArray := by
  induction h generalizing m with
  | @next g gs s s' t visited seen ended hstep later ih =>
      obtain ⟨m₁, hfirst, hdrawn₁, hnotes₁⟩ := hs.draws hstep hdrawn
      obtain ⟨m', hrest, hdrawn', hnotes'⟩ := ih (hs.next hstep) hdrawn₁
      have hle : s.demand ≤ s'.demand :=
        Nat.le_of_not_lt fun hlt =>
          Nat.lt_irrefl _ ((Machine.step_demand hs hstep).2 (Or.inl hlt))
      refine ⟨m', ?_, hdrawn', ?_⟩
      · have hboth := hfirst.append hrest
        rwa [taken, taken, ← List.filterMap_append, List.singleton_append] at hboth
      · rw [hnotes', hnotes₁]
        exact append_questions _ notes hle (later.demand_le (hs.next hstep))
  | more hstep _ ih =>
      have htaken := Moment.taken?_stream hstep
      have hreach := (hs.stream hstep).2
      obtain ⟨rfl, -⟩ := Machine.step_stream hstep
      simpa [taken, htaken, State.goTo] using ih hreach hdrawn
  | waited hstep _ ih =>
      obtain ⟨rfl, -⟩ := Machine.step_waiting hstep
      exact ih hs hdrawn
  | given hstep =>
      have htaken := Moment.taken?_stream hstep
      obtain ⟨rfl, -⟩ := Machine.step_stream hstep
      refine ⟨m, by simpa [taken, htaken] using Draws.nil m, hdrawn, ?_⟩
      simp [questions_self]
  | ended hstep =>
      have htaken := Moment.taken?_nothing hstep
      obtain ⟨rfl, -⟩ := Machine.step_nothing hstep
      refine ⟨m, by simpa [taken, htaken] using Draws.nil m, hdrawn, ?_⟩
      simp [questions_self]

/-- The same from the start: the list is made, and the search counts its first question. -/
theorem Unfolds.draws_all {gs : List (Grammar τ α σ)} {visited : List (Moment τ α σ)}
    {seen : List (Sighting τ α)} {ended : Bool} {root : Rule} {trace : Trace}
    (h : Unfolds src gs (.calling root ⟨0, 0⟩ trace) visited seen ended t)
    (notes : Nat → List String) (m : Memory τ) :
    ∃ list m₁ m', Evaluates m (.lazy (src.asking notes) .give) list m₁ ∧
      Draws list (taken src visited) m₁ m' ∧ Drawn src notes m' t.demand 0 list ∧
      m'.notes = m.notes ++ (questions notes 0 t.demand).toArray := by
  obtain ⟨list, m₁, heval, hdrawn, hnotes₁⟩ := exists_drawn src notes m
  have hreach : (State.calling root ⟨0, 0⟩ trace : State τ α).InReach :=
    State.inReach_calling root trace
  obtain ⟨m', hdraws, hdrawn', hnotes'⟩ := h.draws hreach hdrawn
  refine ⟨list, m₁, m', heval, hdraws, hdrawn', ?_⟩
  have hle : 1 ≤ t.demand := h.demand_le hreach
  rw [hnotes', hnotes₁]
  exact append_questions _ notes (Nat.zero_le 1) hle

end LazyGrammar

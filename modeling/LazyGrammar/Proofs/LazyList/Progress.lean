import LazyGrammar.Proofs.LazyList.Demand

/-!
# LazyGrammar.Proofs.LazyList.Progress

**Walks come to their end** along mapped, joined and flattened lists, if the tails of
their sources can be had and the functions answer.

Design points:

* A list answers if its next tail can be had whatever is asked for until then
  (`Memory.Answers`). It may be endless.
* The tail of a source is asked for while the tail of the list is computed. That it can be
  had at rest is enough, since its computation cannot need the list
  (`Evaluates.tail_under`).
-/

namespace LazyGrammar.LazyList

variable {α : Type}

namespace Memory

/-- Whatever is asked for from now on, the next tail of a list can be had. -/
def Answers (m : Memory α) (list : LazyList) : Prop :=
  ∀ n, Session.Reaches (.rest m) (.rest n) → ∀ count a,
    n.after count list = some (.link a) → ∃ rest n', Evaluates n (.tail a .give) rest n'

/-- No link of a list is taken. -/
def Unspoiled (m : Memory α) (list : LazyList) : Prop :=
  ∀ count b, m.after count list = some (.link b) → m.tail? b ≠ some .taken

/-- A list is empty, or it starts with a link of the memory. -/
def Has (m : Memory α) (list : LazyList) : Prop := ∀ a, list = .link a → a < m.fresh

variable {m n : Memory α} {list : LazyList}

namespace Answers

theorem of_nil (m : Memory α) : m.Answers .nil := by
  intro n _ count a hafter
  simp at hafter

theorem later (h : m.Answers list) (hn : Session.Reaches (.rest m) (.rest n)) :
    n.Answers list :=
  fun _ hreaches => h _ (hn.trans hreaches)

theorem tail {a : Nat} (h : m.Answers (.link a)) (ha : m.tail? a = some (.ready list)) :
    m.Answers list := by
  intro n hn count c hafter
  have hgrows : m.Grows n := (hn.sound trivial).2
  exact h n hn (count + 1) c ((after_of_ready (hgrows.ready ha) count).trans hafter)

/-- What is left of a list that answers is there. -/
theorem has (h : m.Answers list) {count : Nat} {rest : LazyList}
    (hrest : m.after count list = some rest) : m.Has rest := by
  rintro a rfl
  obtain ⟨rest', n, htail⟩ := h m .refl count a hrest
  obtain ⟨list', ha⟩ | ⟨thunk, ha⟩ := htail.ready_or_pending <;> exact lt_fresh_of_tail? ha

/-- The next tail of a list that answers can be had, and is there. -/
theorem exists_tail (h : m.Answers list) {count a : Nat}
    (ha : m.after count list = some (.link a)) :
    ∃ rest n, Evaluates m (.tail a .give) rest n ∧ n.after (count + 1) list = some rest
      ∧ n.Has rest := by
  obtain ⟨rest, n, htail⟩ := h m .refl count a ha
  have hafter := after_succ (htail.grows.1.after ha) htail.tail_known
  exact ⟨rest, n, htail, hafter, (h.later htail.reaches).has hafter⟩

theorem exists_walk (h : m.Answers list) (count : Nat) :
    ∃ rest n, Evaluates m (.walk count list) rest n := by
  induction count generalizing m list with
  | zero => exact ⟨_, _, evaluates_walk_zero.2 ⟨rfl, rfl⟩⟩
  | succ count ih =>
    cases list with
    | nil => exact ⟨_, _, evaluates_walk_nil.2 ⟨rfl, rfl⟩⟩
    | link a =>
      obtain ⟨rest, n, htail⟩ := h m .refl 0 a rfl
      obtain ⟨rest', n', hwalk⟩ := ih ((h.later htail.reaches).tail htail.tail_known)
      exact ⟨rest', n', evaluates_walk_link.2 ⟨rest, n, htail, hwalk⟩⟩

end Answers

namespace Unspoiled

theorem of_nil (m : Memory α) : m.Unspoiled .nil := by
  intro count b hafter
  simp at hafter

theorem of_pending {b : Nat} {thunk : Thunk α} (hb : m.tail? b = some (.pending thunk)) :
    m.Unspoiled (.link b) := by
  intro count c hafter
  cases count with
  | zero =>
    cases hafter
    simp [hb]
  | succ count =>
    obtain ⟨list, hready, -⟩ := ready_of_after hafter
    cases hb.symm.trans hready

theorem tail {b : Nat} (h : m.Unspoiled (.link b)) (hb : m.tail? b = some (.ready list)) :
    m.Unspoiled list :=
  fun count c hafter => h (count + 1) c ((after_of_ready hb count).trans hafter)

end Unspoiled

end Memory

/-- A walk may be made in two parts. -/
theorem Evaluates.walk_add {m m₁ m' : Memory α} {i count : Nat} {list rest last : LazyList}
    (h : Evaluates m (.walk i list) rest m₁) (hrest : Evaluates m₁ (.walk count rest) last m') :
    Evaluates m (.walk (i + count) list) last m' := by
  induction i generalizing m list with
  | zero =>
    obtain ⟨rfl, rfl⟩ := evaluates_walk_zero.1 h
    rwa [Nat.zero_add]
  | succ i ih =>
    cases list with
    | nil =>
      obtain ⟨rfl, rfl⟩ := evaluates_walk_nil.1 h
      exact evaluates_walk_nil.2 (evaluates_walk_nil.1 hrest)
    | link a =>
      obtain ⟨list', m₂, htail, hwalk⟩ := evaluates_walk_link.1 h
      rw [Nat.add_right_comm]
      exact evaluates_walk_link.2 ⟨list', m₂, htail, ih hwalk⟩

/-- A walk goes on if what is left answers. -/
theorem Evaluates.exists_walk {m m₁ : Memory α} {i count : Nat} {list rest : LazyList}
    (h : Evaluates m (.walk i list) rest m₁) (hi : i ≤ count) (hrest : m₁.Answers rest) :
    ∃ last m', Evaluates m (.walk count list) last m' := by
  obtain ⟨last, m', hlast⟩ := hrest.exists_walk (count - i)
  exact ⟨last, m', Nat.add_sub_cancel' hi ▸ h.walk_add hlast⟩

/-! ### Operations answer -/

section Total

variable {n : Memory α} {left : LazyList}

theorem Memory.exists_head {a : Nat} (h : a < n.fresh) : ∃ x, n.head? a = some x :=
  Option.isSome_iff_exists.1 (Memory.head?_isSome_iff.2 h)

theorem exists_map {f : α → Program α .element} (hf : ∀ x n, ∃ y n', Evaluates n (f x) y n')
    (hleft : n.Has left) : ∃ list n', Evaluates n (.map f left .give) list n' := by
  cases left with
  | nil => exact ⟨_, _, evaluates_map_nil.2 (.done _ _)⟩
  | link a =>
    obtain ⟨x, hx⟩ := Memory.exists_head (hleft a rfl)
    obtain ⟨y, n', heval⟩ := hf x n
    exact ⟨_, _, evaluates_map_link.2 ⟨x, y, n', hx, heval, .done _ _⟩⟩

theorem exists_concat_link (that : Program α .list) {a : Nat} (ha : a < n.fresh) :
    ∃ list n', Evaluates n (.concat (.link a) that .give) list n' := by
  obtain ⟨x, hx⟩ := Memory.exists_head ha
  exact ⟨_, _, evaluates_concat_link.2 ⟨x, hx, .done _ _⟩⟩

theorem exists_concat {that : Program α .list}
    (hthat : ∀ n, ∃ second n', Evaluates n that second n') (hleft : n.Has left) :
    ∃ list n', Evaluates n (.concat left that .give) list n' := by
  cases left with
  | nil =>
    obtain ⟨second, n', heval⟩ := hthat n
    exact ⟨_, _, evaluates_concat_nil.2 ⟨second, n', heval, .done _ _⟩⟩
  | link a => exact exists_concat_link that (hleft a rfl)

/-- A function always answers with a list that is not empty. -/
def GivesLink (f : α → Program α .list) : Prop :=
  ∀ x n, ∃ u n', Evaluates n (f x) (.link u) n' ∧ u < n'.fresh

theorem exists_flatMap {f : α → Program α .list} (hf : GivesLink f) (hleft : n.Has left) :
    ∃ list n', Evaluates n (.flatMap f left .give) list n' := by
  cases left with
  | nil => exact ⟨_, _, evaluates_flatMap_nil.2 (.done _ _)⟩
  | link a =>
    obtain ⟨x, hx⟩ := Memory.exists_head (hleft a rfl)
    obtain ⟨u, n₁, heval, hu⟩ := hf x n
    obtain ⟨list, n', hconcat⟩ := exists_concat_link (.flatTail f a) hu
    exact ⟨list, n', evaluates_flatMap_link.2 ⟨x, .link u, n₁, hx, heval, hconcat⟩⟩

end Total

/-! ### Walks along derived lists -/

namespace Session

variable {S : Session α} {go : LazyList → Program α .list} {m : Memory α}
  {source list : LazyList}

/-- If the source answers, and something is made of every list, then a walk along a
derived list comes to its end, or to the end of the source. -/
theorem Derived.exists_walk (hgo : Derives go)
    (total : ∀ n left, n.Has left → ∃ list n', Evaluates n (go left) list n') (hS : S.Sound)
    (h : S.Derived go (.rest m) source list) (hsource : m.Answers source)
    (hlist : m.Unspoiled list) (count : Nat) :
    ∃ i ≤ count, ∃ rest m', Evaluates m (.walk i list) rest m'
      ∧ (i = count ∨ m'.Ends source i) := by
  induction count generalizing S m source list with
  | zero => exact ⟨0, Nat.le_refl 0, _, _, evaluates_walk_zero.2 ⟨rfl, rfl⟩, .inl rfl⟩
  | succ count ih =>
    cases h with
    | ended =>
      exact ⟨0, Nat.zero_le _, _, _, evaluates_walk_zero.2 ⟨rfl, rfl⟩, .inr m.ends_nil⟩
    | @link a b waits =>
      obtain ⟨list', hb⟩ | hpending | htaken := waits.tail?_cases hS
      · obtain ⟨source', ha, hgave⟩ := waits.gave hS hb
        obtain ⟨i, hi, rest, m', hwalk, hend⟩ :=
          ih hS (.of_gave hgo hgave) (hsource.tail ha) (hlist.tail hb)
        exact ⟨i + 1, Nat.succ_le_succ hi, rest, m',
          evaluates_walk_link.2 ⟨_, _, (evaluates_tail_ready hb).2 (.done _ _), hwalk⟩,
          hend.imp (congrArg _) (·.link (hwalk.grows.1.ready ha))⟩
      · have hstart : m.after 0 (.link a) = some (.link a) := rfl
        obtain ⟨left, m₁, htail, -, hleft⟩ := hsource.exists_tail hstart
        obtain ⟨list', m₂, hmade⟩ :=
          total (m₁.setTail b .taken) left (by simpa [Memory.Has] using hleft)
        have htail' := (evaluates_derived hpending).2 ⟨left, m₁, m₂, htail, hmade, rfl⟩
        have ha := Along.ready_of_demand hpending htail hmade
        cases left with
        | nil =>
          exact ⟨1, Nat.succ_le_succ (Nat.zero_le _), list', _,
            evaluates_walk_link.2 ⟨_, _, htail', evaluates_walk_zero.2 ⟨rfl, rfl⟩⟩,
            .inr ((Memory.ends_nil _).link ha)⟩
        | link a' =>
          obtain ⟨b', rfl, hb'⟩ := Along.pending_of_demand hgo hpending htail hmade
          obtain ⟨i, hi, rest, m', hwalk, hend⟩ := ih (S := .rest _) trivial
            (.link ⟨_, .refl, .refl, hb'⟩) ((hsource.later htail'.reaches).tail ha)
            (.of_pending hb')
          exact ⟨i + 1, Nat.succ_le_succ hi, rest, m',
            evaluates_walk_link.2 ⟨_, _, htail', hwalk⟩,
            hend.imp (congrArg _) (·.link (hwalk.grows.1.ready ha))⟩
      · exact absurd htaken (hlist 0 b rfl)

theorem Derived.of_map (hS : S.Sound) {T : Session α} {f : α → Program α .element}
    (h : S.Made (fun _ => .map f source) list T) :
    S.Derived (fun left => .map f left .give) T source list := by
  cases source with
  | nil => exact .ended list
  | link a =>
    obtain ⟨b, x, y, rfl, -, -, -, waits⟩ := h.map_link hS
    exact .link waits

theorem Derived.of_concat (hS : S.Sound) {T : Session α} {that : Program α .list}
    (h : S.Made (fun _ => .concat source that) list T) :
    S.Derived (fun left => .concat left that .give) T source list := by
  cases source with
  | nil => exact .ended list
  | link a =>
    obtain ⟨b, x, rfl, -, -, waits⟩ := h.concat_link hS
    exact .link waits

/-- A mapped list ends with its source. -/
theorem Made.map_at_end (hS : S.Sound) {T : Session α} {f : α → Program α .element}
    {count : Nat} {rest : LazyList} (h : S.Made (fun _ => .map f source) list T)
    (hends : T.memory.Ends source count) (hrest : T.memory.after count list = some rest) :
    rest = .nil := by
  obtain ⟨rfl, rfl⟩ | hgave := (Derived.of_map hS h).at_end (derives_map f) hS hends hrest
  · exact h.eq_nil_of_map
  · exact (Made.of_gave hgave).eq_nil_of_map

/-- Behind the last element of its source, a joined list is the list that the supplier
gave. -/
theorem Made.concat_at_end (hS : S.Sound) {T : Session α} {that : Program α .list}
    {count : Nat} {rest : LazyList} (h : S.Made (fun _ => .concat source that) list T)
    (hends : T.memory.Ends source count) (hrest : T.memory.after count list = some rest) :
    S.Gave that rest T := by
  obtain ⟨rfl, rfl⟩ | hgave :=
    (Derived.of_concat hS h).at_end (derives_concat that) hS hends hrest
  · exact h.gave_of_concat
  · exact (Made.of_gave hgave).gave_of_concat

/-- A mapped list can be walked along if its source answers and the function does. -/
theorem Made.exists_walk_of_map (hS : S.Sound) {f : α → Program α .element}
    (hf : ∀ x n, ∃ y n', Evaluates n (f x) y n')
    (h : S.Made (fun _ => .map f source) list (.rest m)) (hsource : m.Answers source)
    (hlist : m.Unspoiled list) (count : Nat) :
    ∃ rest m', Evaluates m (.walk count list) rest m' := by
  obtain ⟨i, hi, rest, m', hwalk, rfl | hends⟩ := (Derived.of_map hS h).exists_walk
    (derives_map f) (fun _ _ => exists_map hf) hS hsource hlist count
  · exact ⟨rest, m', hwalk⟩
  · obtain rfl := (h.later hwalk.reaches).map_at_end hS hends hwalk.after_walk
    exact hwalk.exists_walk hi (.of_nil m')

/-- A joined list can be walked along if its source answers, the supplier does, and so
does the list that it gives. -/
theorem Made.exists_walk_of_concat (hS : S.Sound) {that : Program α .list}
    (hthat : ∀ n, ∃ second n', Evaluates n that second n')
    (h : S.Made (fun _ => .concat source that) list (.rest m)) (hsource : m.Answers source)
    (hsecond : ∀ n, Reaches (.rest m) (.rest n) → ∀ second, S.Gave that second (.rest n) →
      n.Answers second)
    (hlist : m.Unspoiled list) (count : Nat) :
    ∃ rest m', Evaluates m (.walk count list) rest m' := by
  obtain ⟨i, hi, rest, m', hwalk, rfl | hends⟩ := (Derived.of_concat hS h).exists_walk
    (derives_concat that) (fun _ _ => exists_concat hthat) hS hsource hlist count
  · exact ⟨rest, m', hwalk⟩
  · have hgave := (h.later hwalk.reaches).concat_at_end hS hends hwalk.after_walk
    exact hwalk.exists_walk hi (hsecond m' hwalk.reaches rest hgave)

/-- The tail of a flattened list can be had if the tails of its parts can. -/
theorem exists_tail_of_flat {f : α → Program α .list} (hf : NeverNil f) (total : GivesLink f)
    {inner : LazyList} {i k a b u : Nat}
    (hb : m.tail? b = some (.pending (.code (.concatTail (.flatTail f a) u))))
    (element : m.after i source = some (.link a)) (hsource : m.Answers source)
    (place : m.after k inner = some (.link u)) (hinner : m.Answers inner) :
    ∃ list m', Evaluates m (.tail b .give) list m' ∧ m'.Unspoiled list := by
  obtain ⟨left, m₁, htail, -, hleft⟩ := hinner.exists_tail place
  have hlt : b < (m₁.setTail b .taken).fresh := by
    rw [Memory.fresh_setTail]
    exact htail.lt_fresh hb
  cases left with
  | link u' =>
    obtain ⟨list, m₂, hmade⟩ := exists_concat_link (n := m₁.setTail b .taken)
      (.flatTail f a) (by simpa using hleft u' rfl)
    obtain ⟨b', rfl, hfresh, hb'⟩ := derives_concat _ hmade
    have hne := Nat.ne_of_gt (Nat.lt_of_lt_of_le hlt hfresh)
    exact ⟨_, _, (evaluates_derived hb).2 ⟨_, m₁, m₂, htail, hmade, rfl⟩,
      .of_pending ((Memory.tail?_setTail_of_ne hne _).trans hb')⟩
  | nil =>
    -- The source is asked for its tail while this one is computed.
    obtain ⟨left, m₂, houter, -, hleft⟩ :=
      (hsource.later htail.reaches).exists_tail (htail.grows.1.after element)
    have hblocked : (m₁.setTail a .taken).Blocked (.concatTail (.flatTail f a) u) := by
      by_cases hu : u = a
      · exact hu ▸ houter.blocked _
      · exact .known (by rw [Memory.tail?_setTail_of_ne hu, htail.tail_known])
          (.supplier (houter.blocked _))
    have hunder := (houter.tail_under (htail.tail_under hb (htail.blocked _)).1 hblocked).2
    obtain ⟨list, m₃, hflatMap⟩ := exists_flatMap (n := m₂.setTail b .taken) total
      (by simpa [Memory.Has] using hleft)
    have hsupplied : Evaluates (m₁.setTail b .taken) (.flatTail f a) list m₃ :=
      evaluates_tail_iff.2 ⟨left, _, hunder, hflatMap⟩
    have hmade : Evaluates (m₁.setTail b .taken) (.concat .nil (.flatTail f a) .give) list m₃ :=
      evaluates_concat_nil.2 ⟨list, m₃, hsupplied, .done _ _⟩
    refine ⟨list, _, (evaluates_derived hb).2 ⟨.nil, m₁, m₃, htail, hmade, rfl⟩, ?_⟩
    obtain rfl | ⟨a', b', u', rfl, hfresh, hb'⟩ := hflatMap.waits_of_flatMap hf
    · exact .of_nil _
    · have hlt' : b < b' := by
        rw [Memory.fresh_setTail] at hlt hfresh
        exact Nat.lt_of_lt_of_le hlt (Nat.le_trans houter.grows.1.fresh hfresh)
      exact .of_pending ((Memory.tail?_setTail_of_ne (Nat.ne_of_gt hlt') _).trans hb')

/-- A flattened list can be walked along if its source answers, the function does with
lists that are not empty, and so do these. -/
theorem Stands.exists_walk (hS : S.Sound) {f : α → Program α .list} (hf : NeverNil f)
    (total : GivesLink f) (h : S.Stands f source (.rest m) list) (hsource : m.Answers source)
    (hinner : ∀ n, Reaches (.rest m) (.rest n) → ∀ x inner, S.Gave (f x) inner (.rest n) →
      n.Answers inner)
    (hlist : m.Unspoiled list) (count : Nat) :
    ∃ rest m', Evaluates m (.walk count list) rest m' := by
  induction count generalizing m list with
  | zero => exact ⟨_, _, evaluates_walk_zero.2 ⟨rfl, rfl⟩⟩
  | succ count ih =>
    cases list with
    | nil => exact ⟨_, _, evaluates_walk_nil.2 ⟨rfl, rfl⟩⟩
    | link b =>
      obtain ⟨list, m', htail, hlist'⟩ :
          ∃ list m', Evaluates m (.tail b .give) list m' ∧ m'.Unspoiled list := by
        cases h with
        | @link _ _ _ _ _ x inner element head gave place waits =>
          obtain ⟨list, hb⟩ | hpending | htaken := waits.tail?_cases hS
          · exact ⟨list, m, (evaluates_tail_ready hb).2 (.done _ _), hlist.tail hb⟩
          · exact exists_tail_of_flat hf total hpending element hsource place
              (hinner m .refl x inner gave)
          · exact absurd htaken (hlist 0 b rfl)
      have hlater := htail.reaches
      have hstands := h.later (T := .rest m) trivial hlater
      obtain ⟨rest, n, hwalk⟩ := ih (hstands.tail hS hf htail.tail_known)
        (hsource.later hlater) (fun n hn => hinner n (hlater.trans hn)) hlist'
      exact ⟨rest, n, evaluates_walk_link.2 ⟨list, m', htail, hwalk⟩⟩

end Session

end LazyGrammar.LazyList

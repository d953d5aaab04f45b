import Mathlib.Data.List.Perm.Subperm
import Std.Data.HashMap.Lemmas
import Std.Data.HashSet.Lemmas
import LazyGrammar.Proofs.Analysis.Shapes

/-!
# LazyGrammar.Proofs.Analysis.Solution

**The analysis finds what the shapes say**: `nullableIds` is the set of the nullable rules
and `reachesItself` tells the circular ones.

Both go round until they find nothing new, but at most a given number of times. That this is
often enough is counted in the size of a set of identities: it grows in every round but the
last, and its members are rules of the table (`size_le_length`, `size_lt_size`).
-/

namespace LazyGrammar

/-! ### Sets of identities -/

variable {m m' : Std.HashSet RuleId} {id : RuleId}

theorem nodup_toList (m : Std.HashSet RuleId) : m.toList.Nodup := by
  refine m.distinct_toList.imp ?_
  intro a b hne heq
  simp [heq] at hne

theorem size_le_length {ids : List RuleId} (h : ∀ id ∈ m, id ∈ ids) : m.size ≤ ids.length := by
  have hsub : m.toList ⊆ ids := fun id hid => h id (Std.HashSet.mem_toList.1 hid)
  rw [← Std.HashSet.length_toList]
  exact ((nodup_toList m).subperm hsub).length_le

theorem mem_of_size_le (h : ∀ id ∈ m, id ∈ m') (hsize : m'.size ≤ m.size) (hid : id ∈ m') :
    id ∈ m := by
  have hsub : m.toList ⊆ m'.toList := by
    intro id hid
    exact Std.HashSet.mem_toList.2 (h id (Std.HashSet.mem_toList.1 hid))
  rw [← Std.HashSet.length_toList, ← Std.HashSet.length_toList] at hsize
  have hperm := ((nodup_toList m).subperm hsub).perm_of_length_le hsize
  exact Std.HashSet.mem_toList.1 (hperm.mem_iff.2 (Std.HashSet.mem_toList.2 hid))

theorem size_le_size (h : ∀ id ∈ m, id ∈ m') : m.size ≤ m'.size := by
  rw [← Std.HashSet.length_toList (m := m')]
  exact size_le_length fun id hid => Std.HashSet.mem_toList.2 (h id hid)

theorem size_lt_size (h : ∀ id ∈ m, id ∈ m') (hid : id ∈ m') (hnew : id ∉ m) :
    m.size < m'.size := by
  refine Nat.lt_of_le_of_ne (size_le_size h) ?_
  intro heq
  exact hnew (mem_of_size_le h (Nat.le_of_eq heq.symm) hid)

namespace Survey

variable {s : Survey} {known nullable seen : Std.HashSet RuleId} {shape : Shape}
  {child goal : RuleId}

/-- The shapes that a survey has found. -/
def shapes (s : Survey) : Shapes := fun id shape => ∃ info, s.table[id]? = some ⟨info, shape⟩

/-- What holds of a survey that is finished. -/
structure Closed (s : Survey) : Prop where
  mem_ids : ∀ id, id ∈ s.ids ↔ s.table.contains id = true
  child : ∀ {id shape}, s.shapes id shape → ∀ child ∈ shape.children, child ∈ s.ids

theorem Closed.mem_of_shape (h : s.Closed) (hshape : s.shapes id shape) : id ∈ s.ids := by
  obtain ⟨info, hentry⟩ := hshape
  rw [h.mem_ids, Std.HashMap.contains_eq_isSome_getElem?, hentry]
  rfl

theorem Closed.mem_of_nullable (h : s.Closed) (hid : s.shapes.Nullable id) : id ∈ s.ids := by
  cases hid with
  | leaf hshape => exact h.mem_of_shape hshape
  | choice hshape => exact h.mem_of_shape hshape
  | chain hshape => exact h.mem_of_shape hshape

theorem Closed.mem_of_circular (h : s.Closed) (hid : s.shapes.Circular id) : id ∈ s.ids := by
  obtain ⟨child, hfirst, -⟩ := Relation.TransGen.head'_iff.1 hid
  obtain ⟨shape, hshape, -⟩ := hfirst.mem_children
  exact h.mem_of_shape hshape

/-! ### Nullability -/

theorem shapeNullable_iff (known : Std.HashSet RuleId) (shape : Shape) :
    shapeNullable known shape = true ↔ shape.NullableIf (· ∈ known) := by
  cases shape with
  | leaf nullable => exact Iff.rfl
  | choice children => simp [shapeNullable, Shape.NullableIf]
  | chain children => simp [shapeNullable, Shape.NullableIf]

theorem mem_learn {id' : RuleId} : id' ∈ s.learn known id ↔
    id' ∈ known ∨ id' = id ∧ ∃ shape, s.shapes id shape ∧ shape.NullableIf (· ∈ known) := by
  unfold learn
  split
  · next entry hentry =>
    have hshapes : ∀ shape, s.shapes id shape → shape = entry.shape := by
      intro shape hshape
      obtain ⟨info, hshape⟩ := hshape
      rw [hentry] at hshape
      cases hshape
      rfl
    split
    · next hnullable =>
      rw [shapeNullable_iff] at hnullable
      rw [Std.HashSet.mem_insert, beq_iff_eq, or_comm]
      refine or_congr_right
        ⟨fun heq => ⟨heq.symm, entry.shape, ⟨entry.info, hentry⟩, hnullable⟩, ?_⟩
      exact fun h => h.1.symm
    · next hnullable =>
      rw [shapeNullable_iff] at hnullable
      refine ⟨Or.inl, fun h => h.resolve_right ?_⟩
      rintro ⟨-, shape, hshape, hif⟩
      rw [hshapes shape hshape] at hif
      exact hnullable hif
  · next hnone =>
    refine ⟨Or.inl, fun h => h.resolve_right ?_⟩
    rintro ⟨-, shape, ⟨info, hshape⟩, -⟩
    rw [hnone] at hshape
    cases hshape

theorem mem_learnAll_of_mem (ids : List RuleId) (hid : id ∈ known) :
    id ∈ ids.foldl s.learn known := by
  induction ids generalizing known with
  | nil => exact hid
  | cons first rest ih => exact ih (mem_learn.2 (Or.inl hid))

theorem mem_learnAll (ids : List RuleId) (hid : id ∈ ids) (hshape : s.shapes id shape)
    (hnullable : shape.NullableIf (· ∈ known)) : id ∈ ids.foldl s.learn known := by
  induction ids generalizing known with
  | nil => cases hid
  | cons first rest ih =>
      rcases List.mem_cons.1 hid with rfl | hrest
      · exact mem_learnAll_of_mem rest (mem_learn.2 (Or.inr ⟨rfl, shape, hshape, hnullable⟩))
      · refine ih hrest (hnullable.mono ?_)
        exact fun child _ hchild => mem_learn.2 (Or.inl hchild)

/-- Only nullable rules are learnt from nullable rules. -/
theorem nullable_of_learnAll (ids : List RuleId) (hknown : ∀ id ∈ known, s.shapes.Nullable id) :
    ∀ id ∈ ids.foldl s.learn known, s.shapes.Nullable id := by
  induction ids generalizing known with
  | nil => exact hknown
  | cons first rest ih =>
      refine ih ?_
      intro id hid
      rcases mem_learn.1 hid with hid | ⟨rfl, shape, hshape, hnullable⟩
      · exact hknown id hid
      · exact .of_shape hshape (hnullable.mono fun child _ => hknown child)

theorem nullable_of_solve (n : Nat) (hknown : ∀ id ∈ known, s.shapes.Nullable id) :
    ∀ id ∈ s.solve n known, s.shapes.Nullable id := by
  induction n generalizing known with
  | zero => exact hknown
  | succ n ih =>
      unfold solve
      dsimp only
      split
      · exact hknown
      · exact ih (nullable_of_learnAll s.ids hknown)

/-- Enough rounds get to a set from which nothing new is learnt. -/
theorem mem_solve (hs : s.Closed) (n : Nat) (hknown : ∀ id ∈ known, s.shapes.Nullable id)
    (henough : s.ids.length < n + known.size) (hshape : s.shapes id shape)
    (hnullable : shape.NullableIf (· ∈ s.solve n known)) : id ∈ s.solve n known := by
  induction n generalizing known with
  | zero =>
      have hle := size_le_length fun id hid => hs.mem_of_nullable (hknown id hid)
      omega
  | succ n ih =>
      have hgrown : ∀ id ∈ known, id ∈ s.ids.foldl s.learn known :=
        fun id hid => mem_learnAll_of_mem s.ids hid
      unfold solve at hnullable ⊢
      dsimp only at hnullable ⊢
      split
      · next hsize =>
        rw [if_pos hsize] at hnullable
        refine mem_of_size_le hgrown (Nat.le_of_eq hsize) ?_
        exact mem_learnAll s.ids (hs.mem_of_shape hshape) hshape hnullable
      · next hsize =>
        rw [if_neg hsize] at hnullable
        have hle := size_le_size hgrown
        exact ih (nullable_of_learnAll s.ids hknown) (by omega) hnullable

/-- **The rounds stop by themselves**: once there are enough, more of them change nothing. -/
theorem solve_of_le (hs : s.Closed) {n m : Nat} (hknown : ∀ id ∈ known, s.shapes.Nullable id)
    (henough : s.ids.length < n + known.size) (hle : n ≤ m) :
    s.solve m known = s.solve n known := by
  induction n generalizing known m with
  | zero =>
      have hle := size_le_length fun id hid => hs.mem_of_nullable (hknown id hid)
      omega
  | succ n ih =>
      obtain ⟨m, rfl⟩ := Nat.exists_eq_add_of_le' (Nat.le_trans n.succ_pos hle)
      have hgrown : known.size ≤ (s.ids.foldl s.learn known).size :=
        size_le_size fun id hid => mem_learnAll_of_mem s.ids hid
      unfold solve
      dsimp only
      split
      · rfl
      · exact ih (nullable_of_learnAll s.ids hknown) (by omega) (Nat.le_of_succ_le_succ hle)

/-- The bound on the rounds does not show in the nullable rules. -/
theorem solve_eq_nullableIds (hs : s.Closed) {rounds : Nat} (hrounds : s.ids.length < rounds) :
    s.solve rounds ∅ = s.nullableIds :=
  solve_of_le hs (by simp) (by omega) hrounds

/-- **The nullable rules are the least solution.** -/
theorem mem_nullableIds (hs : s.Closed) : id ∈ s.nullableIds ↔ s.shapes.Nullable id := by
  have hnone : ∀ id ∈ (∅ : Std.HashSet RuleId), s.shapes.Nullable id := by simp
  have hclosed : ∀ {id shape}, s.shapes id shape → shape.NullableIf (· ∈ s.nullableIds) →
      id ∈ s.nullableIds :=
    fun hshape hnullable => mem_solve hs _ hnone (by omega) hshape hnullable
  constructor
  · exact nullable_of_solve _ hnone id
  · intro h
    induction h with
    | leaf h => exact hclosed h rfl
    | choice h hchild _ ih => exact hclosed h ⟨_, hchild, ih⟩
    | chain h _ ih => exact hclosed h ih

/-! ### Circles -/

theorem mem_upToSolid {children : List RuleId} : child ∈ upToSolid nullable children ↔
    ∃ before after, children = before ++ child :: after ∧ ∀ other ∈ before, other ∈ nullable := by
  induction children with
  | nil => simp [upToSolid]
  | cons first rest ih =>
      unfold upToSolid
      constructor
      · intro h
        split at h
        · next hfirst =>
          rcases List.mem_cons.1 h with rfl | hrest
          · exact ⟨[], rest, rfl, nofun⟩
          · obtain ⟨before, after, rfl, hbefore⟩ := ih.1 hrest
            refine ⟨first :: before, after, rfl, ?_⟩
            intro other hother
            rcases List.mem_cons.1 hother with rfl | hother
            · exact hfirst
            · exact hbefore other hother
        · cases List.mem_singleton.1 h
          exact ⟨[], rest, rfl, nofun⟩
      · intro h
        obtain ⟨before, after, heq, hbefore⟩ := h
        cases before with
        | nil =>
            cases heq
            split <;> exact List.mem_cons_self ..
        | cons other before =>
            cases heq
            have hfirst : nullable.contains first = true := hbefore first (List.mem_cons_self ..)
            rw [if_pos hfirst]
            refine List.mem_cons_of_mem _ (ih.2 ⟨before, after, rfl, ?_⟩)
            exact fun other hother => hbefore other (List.mem_cons_of_mem _ hother)

theorem mem_leftmost (hnullable : ∀ id, id ∈ nullable ↔ s.shapes.Nullable id) :
    child ∈ s.leftmost nullable id ↔ s.shapes.Leftmost id child := by
  unfold leftmost
  constructor
  · intro h
    split at h
    · next info children hentry => exact .choice ⟨info, hentry⟩ h
    · next info children hentry =>
      obtain ⟨before, after, rfl, hbefore⟩ := mem_upToSolid.1 h
      exact .chain ⟨info, hentry⟩ fun other hother => (hnullable other).1 (hbefore other hother)
    all_goals cases h
  · intro h
    cases h with
    | choice h hchild =>
        obtain ⟨info, hentry⟩ := h
        rw [hentry]
        exact hchild
    | chain h hbefore =>
        obtain ⟨info, hentry⟩ := h
        rw [hentry]
        refine mem_upToSolid.2 ⟨_, _, rfl, ?_⟩
        exact fun other hother => (hnullable other).2 (hbefore other hother)

/-- What is found to be within reach is. -/
theorem exists_of_reaches {n : Nat} {frontier : List RuleId}
    (h : s.reaches nullable goal n seen frontier = true) :
    ∃ id ∈ frontier,
      Relation.ReflTransGen (fun id child => child ∈ s.leftmost nullable id) id goal := by
  induction n generalizing seen frontier with
  | zero => cases h
  | succ n ih =>
      unfold reaches at h
      split at h
      · next hgoal => exact ⟨goal, List.contains_iff_mem.1 hgoal, .refl⟩
      · dsimp only at h
        split at h
        · cases h
        · obtain ⟨child, hchild, hreach⟩ := ih h
          obtain ⟨id, hid, hstep⟩ := List.mem_flatMap.1 hchild
          exact ⟨id, (List.mem_filter.1 (List.mem_eraseDups.1 hid)).1, .head hstep hreach⟩

/-- The rules of a frontier that have not been seen. -/
def fresh (seen : Std.HashSet RuleId) (frontier : List RuleId) : List RuleId :=
  (frontier.filter fun id => !seen.contains id).eraseDups

theorem mem_fresh {frontier : List RuleId} :
    id ∈ fresh seen frontier ↔ id ∈ frontier ∧ id ∉ seen := by
  rw [fresh, List.mem_eraseDups, List.mem_filter, Std.HashSet.mem_iff_contains,
    Bool.not_eq_true', Bool.not_eq_true]

theorem mem_insertMany {ids : List RuleId} : id ∈ seen.insertMany ids ↔ id ∈ seen ∨ id ∈ ids := by
  rw [Std.HashSet.mem_insertMany_list, List.contains_iff_mem]

/-- What holds of a search for a goal as long as it has not come upon it: nothing leads out of
what has been seen but to the frontier. -/
structure Seeks (s : Survey) (nullable : Std.HashSet RuleId) (goal : RuleId)
    (seen : Std.HashSet RuleId) (frontier : List RuleId) : Prop where
  seen_ids : ∀ id ∈ seen, id ∈ s.ids
  frontier_ids : ∀ id ∈ frontier, id ∈ s.ids
  next : ∀ id ∈ seen, ∀ child ∈ s.leftmost nullable id, child ∈ seen ∨ child ∈ frontier
  goal : goal ∉ seen

namespace Seeks

variable {frontier : List RuleId}

theorem seen_or_fresh (hid : id ∈ frontier) : id ∈ seen ∨ id ∈ fresh seen frontier := by
  by_cases hin : id ∈ seen
  · exact Or.inl hin
  · exact Or.inr (mem_fresh.2 ⟨hid, hin⟩)

theorem round (h : s.Seeks nullable goal seen frontier)
    (hstep : ∀ id child, child ∈ s.leftmost nullable id → child ∈ s.ids)
    (hnot : goal ∉ frontier) :
    s.Seeks nullable goal (seen.insertMany (fresh seen frontier))
      ((fresh seen frontier).flatMap (s.leftmost nullable)) := by
  constructor
  · intro id hid
    rcases mem_insertMany.1 hid with hin | hin
    · exact h.seen_ids id hin
    · exact h.frontier_ids id (mem_fresh.1 hin).1
  · intro child hchild
    obtain ⟨id, -, hchild⟩ := List.mem_flatMap.1 hchild
    exact hstep id child hchild
  · intro id hid child hchild
    rcases mem_insertMany.1 hid with hin | hin
    · exact Or.inl (mem_insertMany.2 ((h.next id hin child hchild).elim Or.inl seen_or_fresh))
    · exact Or.inr (List.mem_flatMap.2 ⟨id, hin, hchild⟩)
  · intro hin
    rcases mem_insertMany.1 hin with hin | hin
    · exact h.goal hin
    · exact hnot (mem_fresh.1 hin).1

/-- A round that meets a rule has seen more. -/
theorem size_lt (hnonempty : ¬ (fresh seen frontier).isEmpty = true) :
    seen.size < (seen.insertMany (fresh seen frontier)).size := by
  obtain ⟨first, hfirst⟩ := List.exists_mem_of_ne_nil _ (mt List.isEmpty_iff.2 hnonempty)
  exact size_lt_size (fun id hid => mem_insertMany.2 (Or.inl hid))
    (mem_insertMany.2 (Or.inr hfirst)) (mem_fresh.1 hfirst).2

/-- Enough rounds that do not come upon the goal get to a set that nothing leads out of. -/
theorem exists_closed (h : s.Seeks nullable goal seen frontier)
    (hstep : ∀ id child, child ∈ s.leftmost nullable id → child ∈ s.ids) {n : Nat}
    (henough : s.ids.length < n + seen.size)
    (hnot : s.reaches nullable goal n seen frontier = false) :
    ∃ within : Std.HashSet RuleId, (∀ id ∈ seen, id ∈ within) ∧ (∀ id ∈ frontier, id ∈ within) ∧
      (∀ id ∈ within, ∀ child ∈ s.leftmost nullable id, child ∈ within) ∧ goal ∉ within := by
  induction n generalizing seen frontier with
  | zero =>
      have hle := size_le_length h.seen_ids
      omega
  | succ n ih =>
      unfold reaches at hnot
      split at hnot
      · cases hnot
      · next hgoal =>
        rw [List.contains_iff_mem] at hgoal
        have hround := h.round hstep hgoal
        dsimp only at hnot
        rw [← fresh] at hnot
        split at hnot
        · next hempty =>
          -- the frontier has been seen, so nothing leads out of what has been seen
          rw [List.isEmpty_iff] at hempty
          have hall : ∀ id ∈ frontier, id ∈ seen := by
            intro id hid
            refine (seen_or_fresh hid).resolve_right ?_
            rw [hempty]
            exact List.not_mem_nil
          refine ⟨seen, fun _ hid => hid, hall, ?_, h.goal⟩
          intro id hid child hchild
          exact (h.next id hid child hchild).elim (fun hin => hin) (hall child)
        · next hnonempty =>
          have hgrows := size_lt hnonempty
          obtain ⟨within, hwithin, -, hclosed, hout⟩ := ih hround (by omega) hnot
          refine ⟨within, fun id hid => hwithin id (mem_insertMany.2 (Or.inl hid)), ?_,
            hclosed, hout⟩
          exact fun id hid => hwithin id (mem_insertMany.2 (seen_or_fresh hid))

/-- **The search stops by itself**: once there are enough rounds, more of them change nothing. -/
theorem reaches_of_le (h : s.Seeks nullable goal seen frontier)
    (hstep : ∀ id child, child ∈ s.leftmost nullable id → child ∈ s.ids) {n m : Nat}
    (henough : s.ids.length < n + seen.size) (hle : n ≤ m) :
    s.reaches nullable goal m seen frontier = s.reaches nullable goal n seen frontier := by
  induction n generalizing seen frontier m with
  | zero =>
      have hle := size_le_length h.seen_ids
      omega
  | succ n ih =>
      obtain ⟨m, rfl⟩ := Nat.exists_eq_add_of_le' (Nat.le_trans n.succ_pos hle)
      unfold reaches
      split
      · rfl
      · next hgoal =>
        rw [List.contains_iff_mem] at hgoal
        dsimp only
        rw [← fresh]
        split
        · rfl
        · next hnonempty =>
          have hgrows := size_lt hnonempty
          exact ih (h.round hstep hgoal) (by omega) (Nat.le_of_succ_le_succ hle)

end Seeks

/-- What a closed survey goes on to from one of its rules is a rule of it. -/
theorem mem_ids_of_leftmost (hs : s.Closed) (id : RuleId) :
    ∀ child ∈ s.leftmost s.nullableIds id, child ∈ s.ids := by
  intro child hchild
  obtain ⟨shape, hshape, hmem⟩ :=
    ((mem_leftmost fun _ => mem_nullableIds hs).1 hchild).mem_children
  exact hs.child hshape child hmem

theorem Seeks.start (hs : s.Closed) (id : RuleId) :
    s.Seeks s.nullableIds id ∅ (s.leftmost s.nullableIds id) :=
  ⟨by simp, mem_ids_of_leftmost hs id, by simp, by simp⟩

/-- The bound on the rounds does not show in whether a rule reaches itself. -/
theorem reaches_eq_reachesItself (hs : s.Closed) (id : RuleId) {rounds : Nat}
    (hrounds : s.ids.length + 1 < rounds) :
    s.reaches s.nullableIds id rounds ∅ (s.leftmost s.nullableIds id)
      = s.reachesItself s.nullableIds id :=
  (Seeks.start hs id).reaches_of_le (mem_ids_of_leftmost hs) (by omega) hrounds

/-- **A rule is found to reach itself exactly if it lies on a circle.** -/
theorem reachesItself_iff (hs : s.Closed) :
    s.reachesItself s.nullableIds id = true ↔ s.shapes.Circular id := by
  have hleft : ∀ {id child}, child ∈ s.leftmost s.nullableIds id ↔ s.shapes.Leftmost id child :=
    mem_leftmost fun _ => mem_nullableIds hs
  have hrel : (fun id child => child ∈ s.leftmost s.nullableIds id) = s.shapes.Leftmost := by
    funext id child
    exact propext hleft
  constructor
  · intro h
    obtain ⟨child, hchild, hreach⟩ := exists_of_reaches h
    rw [hrel] at hreach
    exact .head' (hleft.1 hchild) hreach
  · intro h
    by_contra hnot
    rw [Bool.not_eq_true] at hnot
    obtain ⟨within, -, hfirst, hclosed, hout⟩ :=
      (Seeks.start hs id).exists_closed (mem_ids_of_leftmost hs) (by omega) hnot
    obtain ⟨child, hchild, hreach⟩ := Relation.TransGen.head'_iff.1 h
    -- the set has the first rule after `id` and everything it leads to, but not `id`
    have hall : ∀ last, Relation.ReflTransGen s.shapes.Leftmost child last → last ∈ within := by
      intro last hlast
      induction hlast with
      | refl => exact hfirst child (hleft.2 hchild)
      | tail _ hstep' ih => exact hclosed _ ih _ (hleft.2 hstep')
    exact hout (hall id hreach)

end Survey

/-! ### Answers -/

namespace Analysis

variable {s : Survey} {p : Properties}

theorem mem_recursive (hs : s.Closed) :
    id ∈ (ofSurvey s).recursive ↔ id ∈ s.ids ∧ s.shapes.Circular id := by
  rw [ofSurvey, List.mem_filter, List.mem_mergeSort, Survey.reachesItself_iff hs]

/-- **What the analysis tells of a rule is what the shapes say.** -/
theorem properties?_ofSurvey (hs : s.Closed) : (ofSurvey s).properties? id = some p ↔
    id ∈ s.ids ∧ (p.nullable = true ↔ s.shapes.Nullable id) ∧
      (p.leftRecursive = true ↔ s.shapes.Circular id) := by
  have hnullable : s.nullableIds.contains id = true ↔ s.shapes.Nullable id :=
    Survey.mem_nullableIds hs
  unfold properties?
  split
  · next hcontains =>
    have hid := (hs.mem_ids id).2 hcontains
    have hrecursive : (ofSurvey s).recursive.contains id = true ↔ s.shapes.Circular id := by
      rw [List.contains_iff_mem, mem_recursive hs, and_iff_right hid]
    constructor
    · intro h
      cases h
      exact ⟨hid, hnullable, hrecursive⟩
    · intro h
      obtain ⟨-, hn, hr⟩ := h
      congr
      · exact Bool.eq_iff_iff.2 (hnullable.trans hn.symm)
      · exact Bool.eq_iff_iff.2 (hrecursive.trans hr.symm)
  · next hcontains =>
    refine iff_of_false nofun fun h => hcontains ((hs.mem_ids id).1 h.1)

/-- The analysis has an answer for a rule. -/
def Knows (a : Analysis) (id : RuleId) : Prop := (a.properties? id).isSome = true

theorem knows_ofSurvey (hs : s.Closed) : (ofSurvey s).Knows id ↔ id ∈ s.ids := by
  rw [hs.mem_ids, Knows, properties?]
  split
  · next hcontains => exact iff_of_true rfl hcontains
  · next hcontains => exact iff_of_false nofun hcontains

theorem exists_properties (hs : s.Closed) (hid : id ∈ s.ids) :
    ∃ p, (ofSurvey s).properties? id = some p ∧ (p.nullable = true ↔ s.shapes.Nullable id) ∧
      (p.leftRecursive = true ↔ s.shapes.Circular id) := by
  obtain ⟨p, hp⟩ := Option.isSome_iff_exists.1 ((knows_ofSurvey hs).2 hid)
  exact ⟨p, hp, ((properties?_ofSurvey hs).1 hp).2⟩

/-- No rule is listed as left-recursive exactly if none lies on a circle. -/
theorem leftRecursiveRules_eq_nil (hs : s.Closed) :
    (ofSurvey s).leftRecursiveRules = [] ↔ ∀ id ∈ s.ids, ¬ s.shapes.Circular id := by
  rw [leftRecursiveRules, List.filterMap_eq_nil_iff]
  constructor
  · intro h id hid hcircular
    have hnone := h id ((mem_recursive hs).2 ⟨hid, hcircular⟩)
    have hsome := (hs.mem_ids id).1 hid
    rw [Std.HashMap.contains_eq_isSome_getElem?] at hsome
    obtain ⟨entry, hentry⟩ := Option.isSome_iff_exists.1 hsome
    have hentry' : (ofSurvey s).survey.table[id]? = some entry := hentry
    rw [hentry'] at hnone
    cases hnone
  · intro h id hid
    obtain ⟨hids, hcircular⟩ := (mem_recursive hs).1 hid
    exact absurd hcircular (h id hids)

end Analysis

end LazyGrammar

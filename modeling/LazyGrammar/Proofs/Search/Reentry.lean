import LazyGrammar.Proofs.Search.Evaluation

/-!
# LazyGrammar.Proofs.Search.Reentry

**What happens until a search is answered.** A search that has got to a place, as every use of a
rule has, comes to a first outcome (`Unfolds.first_outcome`). A tail that is forced may come to
nothing more as well. Until it does the one or the other, only proper parts of it are forced
(`Unfolds.partOf_of_forced`), so no tail is ever forced within its own computation.

Design points:

* A search does not look at the frames below it, so an answer may be awaited by any frames
  (`State.above`).
* The computation of a tail has two phases. At first it looks for a place from which something
  comes out, and only parts of the tail are left to look through (`State.Seeks`). Once there is
  such a place (`Control.Owes`), it goes on to the answer and forces nothing any more.
-/

namespace LazyGrammar

variable {τ α σ : Type} {g : Grammar τ α σ} {src : Source τ} {s s' t : State τ α}
  {T T' tail : Tail τ α} {base : List (Frame τ α)} {visited : List (Moment τ α σ)}
  {seen : List (Sighting τ α)} {ended : Bool}

/-! ### Parts of tails -/

namespace Tail

/-- The tails that a tail is put together from. -/
inductive Piece : Tail τ α → Tail τ α → Prop
  | mapped {f : α → Except Fault α} {inner : Tail τ α} : Piece inner (.mapped f inner)
  | first {first : Tail τ α} {later : Later} : Piece first (.orElse first later)
  | inner {inner outer : Tail τ α} {chain : Chain α} : Piece inner (.chained inner outer chain)
  | outer {inner outer : Tail τ α} {chain : Chain α} : Piece outer (.chained inner outer chain)
  | visited {w : Walk τ α (Tail τ α)} {depth start : Nat} {o : Outcome τ α} {tail : Tail τ α}
      (hmem : .visit depth start o tail ∈ w.stack) : Piece tail (.walking w)

/-- A tail is a proper part of another one. -/
def PartOf : Tail τ α → Tail τ α → Prop := Relation.TransGen Piece

theorem Piece.sizeOf_lt (h : Piece T' T) : sizeOf T' < sizeOf T := by
  cases h with
  | mapped | first | inner | outer =>
      simp only [mapped.sizeOf_spec, orElse.sizeOf_spec, chained.sizeOf_spec]
      omega
  | @visited w depth start o tail hmem =>
      -- the stack is a part of the walk, the visit of the stack, and the tail of the visit
      have hlt := List.sizeOf_lt_of_mem hmem
      obtain ⟨item, info, crumbs, collect, values, stack⟩ := w
      simp only [walking.sizeOf_spec, Walk.mk.sizeOf_spec, Visit.visit.sizeOf_spec] at hlt ⊢
      omega

theorem PartOf.sizeOf_lt (h : T'.PartOf T) : sizeOf T' < sizeOf T := by
  induction h with
  | single hpiece => exact hpiece.sizeOf_lt
  | tail _ hpiece ih => exact ih.trans hpiece.sizeOf_lt

/-- No tail is a proper part of itself. -/
theorem PartOf.ne (h : T'.PartOf T) : T' ≠ T := by
  rintro rfl
  exact Nat.lt_irrefl _ h.sizeOf_lt

end Tail

/-! ### Answers -/

/-- A stream, or its end, is handed to the given frames. -/
def State.Answers (s : State τ α) (frames : List (Frame τ α)) : Prop :=
  s.frames = frames ∧ ((∃ o tail, s.control = .give o tail) ∨ s.control = .finish)

/-- A search above frames that await its answer. -/
def State.above (s : State τ α) (base : List (Frame τ α)) : State τ α :=
  { s with frames := s.frames ++ base }

theorem State.Answers.above (h : s.Answers []) (base : List (Frame τ α)) :
    (s.above base).Answers base := by
  refine ⟨?_, h.2⟩
  rw [State.above, h.1, List.nil_append]

/-- **Until it answers, a search does not look at the frames that await the answer.** -/
theorem Machine.step_above_next (hbusy : ¬ s.Answers [])
    (hstep : step g src (s.above base) = .next s') :
    ∃ u, step g src s = .next u ∧ s' = u.above base := by
  induction base using List.reverseRecOn generalizing s' with
  | nil =>
      have habove : ∀ u : State τ α, u.above [] = u := fun u => by simp [State.above]
      rw [habove] at hstep
      exact ⟨s', hstep, (habove s').symm⟩
  | append_singleton base frame ih =>
      have habove : ∀ u : State τ α, u.above (base ++ [frame]) = (u.above base).over frame :=
        fun u => by simp [State.above, State.over]
      rw [habove] at hstep
      -- with no frame left but this one, the search would answer
      have hempty : (s.above base).frames = [] → s.frames = [] :=
        fun hframes => (List.append_eq_nil_iff.1 hframes).1
      rcases step_over_next hstep with ⟨v, hv, rfl⟩ | ⟨o, tail, hcontrol, hframes, -⟩ |
        ⟨hcontrol, hframes, -⟩
      · obtain ⟨u, hu, rfl⟩ := ih hv
        exact ⟨u, hu, (habove u).symm⟩
      · exact absurd ⟨hempty hframes, Or.inl ⟨o, tail, hcontrol⟩⟩ hbusy
      · exact absurd ⟨hempty hframes, Or.inr hcontrol⟩ hbusy

theorem State.InReach.of_above (h : (s.above base).InReach) : s.InReach :=
  ⟨h.control, fun frame hframe => h.frames frame (List.mem_append_left _ hframe)⟩

namespace Unfolds

/-- A search that does not answer yet takes a step. -/
theorem of_busy (h : Unfolds src [g] (s.above base) visited seen ended t)
    (hbusy : ¬ (s.above base).Answers base) :
    ∃ u later, visited = ⟨g, s.above base⟩ :: later ∧ Machine.step g src s = .next u ∧
      Machine.step g src (s.above base) = .next (u.above base) ∧
      Unfolds src [g] (u.above base) later seen ended t := by
  -- where a stream comes out or a search ends, this is an answer to the last frames
  have hlast : (s.above base).frames = [] → (s.above base).frames = base := fun hframes =>
    hframes.trans (List.append_eq_nil_iff.1 hframes).2.symm
  cases h with
  | next hstep later =>
      obtain ⟨u, hu, rfl⟩ := Machine.step_above_next (fun h => hbusy (h.above base)) hstep
      exact ⟨u, _, rfl, hu, hstep, later⟩
  | more hstep | given hstep =>
      obtain ⟨-, hcontrol, hframes⟩ := Machine.step_stream hstep
      exact absurd ⟨hlast hframes, Or.inl ⟨_, _, hcontrol⟩⟩ hbusy
  | waited _ later => cases later
  | ended hstep =>
      obtain ⟨-, hcontrol, hframes⟩ := Machine.step_nothing hstep
      exact absurd ⟨hlast hframes, Or.inr hcontrol⟩ hbusy

/-! ### First outcomes -/

/-- **A search that has got to a place comes to a first outcome.** It hands a stream to the
frames that await it, and never their end. -/
theorem first_outcome (h : Unfolds src [g] (s.above base) visited seen ended t)
    (hreach : (s.above base).InReach) (howes : s.control.Owes 0) :
    ∃ o tail s', Machine.Steps g src (s.above base) s' ∧ s'.control = .give o tail ∧
      s'.frames = base := by
  induction visited generalizing s with
  | nil =>
      obtain ⟨later, hvisited⟩ := h.visited_eq
      cases hvisited
  | cons m visited ih =>
      by_cases hanswers : (s.above base).Answers base
      · obtain ⟨hframes, ⟨o, tail, hcontrol⟩ | hcontrol⟩ := hanswers
        · exact ⟨o, tail, _, .refl, hcontrol, hframes⟩
        · rw [show s.control = .finish from hcontrol] at howes
          exact howes.elim
      · obtain ⟨u, later, hvisited, hu, hstep, hlater⟩ := h.of_busy hanswers
        obtain ⟨-, rfl⟩ := List.cons.inj hvisited
        obtain ⟨o, tail, s', hsteps, hgive⟩ := ih hlater (hreach.next hstep)
          (Machine.step_owes hreach.of_above (Or.inl howes) hu)
        exact ⟨o, tail, s', .head hstep hsteps, hgive⟩

end Unfolds

/-! ### The computation of a tail -/

/-- All tails on the stack of a walk are proper parts of a tail. -/
def Walk.Under (T : Tail τ α) (w : Walk τ α (Tail τ α)) : Prop :=
  ∀ depth start o tail, .visit depth start o tail ∈ w.stack → tail.PartOf T

/-- All tails that a frame has put off are proper parts of a tail. -/
def Frame.Under (T : Tail τ α) : Frame τ α → Prop
  | .map _ | .orElse _ | .chainOuter _ => True
  | .chainInner outer _ => outer.PartOf T
  | .item w _ _ => w.Under T

/-- Proper parts of a tail are looked through. -/
def Control.Under (T : Tail τ α) : Control τ α → Prop
  | .force tail => tail.PartOf T
  | .walk w => w.Under T
  | .finish => True
  | .call .. | .follow .. | .continue .. | .give .. | .fail _ => False

/-- A state in the computation of a tail in which nothing has been found yet: all that is left
to look through is proper parts of the tail. -/
structure State.Seeks (T : Tail τ α) (s : State τ α) : Prop where
  control : s.control.Under T
  frames : ∀ frame ∈ s.frames, frame.Under T

/-- A state in the computation of a tail, in either phase. -/
def State.Computes (T : Tail τ α) (s : State τ α) : Prop := s.Seeks T ∨ s.control.Owes 0

namespace State

theorem seeks_goTo {control : Control τ α} (hframes : ∀ frame ∈ s.frames, frame.Under T)
    (hcontrol : control.Under T) : (s.goTo control).Seeks T := ⟨hcontrol, hframes⟩

theorem seeks_push {frame : Frame τ α} {control : Control τ α}
    (hframes : ∀ frame ∈ s.frames, frame.Under T) (hframe : frame.Under T)
    (hcontrol : control.Under T) : (s.push frame control).Seeks T :=
  ⟨hcontrol, List.forall_mem_cons.2 ⟨hframe, hframes⟩⟩

end State

namespace Machine

open State

/-- Forcing a part of a tail, or the tail itself, forces the pieces of that. -/
theorem force_seeks (hframes : ∀ frame ∈ s.frames, frame.Under T)
    (htail : Relation.ReflTransGen Tail.Piece tail T) : (force s tail).Seeks T := by
  have hpiece : ∀ t : Tail τ α, t.Piece tail → t.PartOf T :=
    fun t hpiece => .head' hpiece htail
  cases tail with
  | done => exact seeks_goTo hframes trivial
  | mapped f inner => exact seeks_push hframes trivial (hpiece inner .mapped)
  | orElse first later => exact seeks_push hframes trivial (hpiece first .first)
  | chained inner outer chain =>
      exact seeks_push hframes (hpiece outer .outer) (hpiece inner .inner)
  | walking w => exact seeks_goTo hframes fun _ _ _ t hmem => hpiece t (.visited hmem)

theorem walk_computes {w : Walk τ α (Tail τ α)} (hframes : ∀ frame ∈ s.frames, frame.Under T)
    (hw : w.Under T) : (walk w s).Computes T := by
  unfold walk
  split
  · exact Or.inl (seeks_goTo hframes trivial)
  · exact Or.inr (Nat.zero_le _)
  · next depth start o tail stack hstack =>
    rw [Walk.Under, hstack] at hw
    have hrest : ({ w with stack } : Walk τ α (Tail τ α)).Under T :=
      fun d i o' t hmem => hw d i o' t (List.mem_cons_of_mem _ hmem)
    exact Or.inl (seeks_push hframes hrest (hw depth start o tail (List.mem_cons_self ..)))

theorem finish_computes {frame : Frame τ α} (hframes : ∀ frame ∈ s.frames, frame.Under T)
    (hframe : frame.Under T) : (finish s frame).Computes T := by
  cases frame with
  | map f => exact Or.inl (seeks_goTo hframes trivial)
  | orElse later => exact Or.inr (tryLater_owes (Nat.zero_le _))
  | chainOuter chain => exact Or.inl (seeks_goTo hframes trivial)
  | chainInner outer chain => exact Or.inl (seeks_push hframes trivial hframe)
  | item w depth start => exact Or.inl (seeks_goTo hframes hframe)

/-- **A step stays in the computation.** As long as nothing has been found, only proper parts of
the tail are forced, and afterwards nothing is. -/
theorem step_computes (hs : s.InReach) (h : s.Computes T) (hstep : step g src s = .next s') :
    s'.Computes T := by
  rcases h with ⟨hcontrol, hframes⟩ | howes
  · obtain ⟨control, frames, demand, trace⟩ := s
    cases control with
    | force tail =>
        cases hstep
        exact Or.inl (force_seeks hframes (Relation.TransGen.to_reflTransGen hcontrol))
    | walk w =>
        cases hstep
        exact walk_computes hframes hcontrol
    | finish =>
        cases frames with
        | nil => cases hstep
        | cons frame frames =>
            cases hstep
            obtain ⟨hframe, hframes⟩ := List.forall_mem_cons.1 hframes
            exact finish_computes hframes hframe
    | _ => exact hcontrol.elim
  · exact Or.inr (step_owes hs (Or.inl howes) hstep)

end Machine

namespace Unfolds

variable {before between after : List (Moment τ α σ)} {m m' : Moment τ α σ}

/-- Until it is answered, a search that computes a tail goes on to do so. -/
theorem computes (h : Unfolds src [g] (s.above base) (before ++ m :: after) seen ended t)
    (hreach : (s.above base).InReach) (hs : s.Computes T)
    (hbusy : ∀ m' ∈ before, ¬ m'.state.Answers base) :
    ∃ u : State τ α, m.state = u.above base ∧ u.Computes T := by
  induction before generalizing s with
  | nil =>
      obtain ⟨later, hvisited⟩ := h.visited_eq
      cases hvisited
      exact ⟨s, rfl, hs⟩
  | cons m' before ih =>
      obtain ⟨later, hvisited⟩ := h.visited_eq
      cases hvisited
      obtain ⟨hnot, hbusy⟩ := List.forall_mem_cons.1 hbusy
      obtain ⟨u, later, hvisited, hu, hstep, hlater⟩ := h.of_busy hnot
      obtain ⟨-, rfl⟩ := List.cons.inj hvisited
      exact ih hlater (hreach.next hstep) (Machine.step_computes hreach.of_above hs hu) hbusy

end Unfolds

/-- While one tail is computed, another one is forced: the first tail is forced in a state that a
search visits, the second one in a later state, and the first has not been answered in between. -/
def ForcedDuring (visited : List (Moment τ α σ)) (T T' : Tail τ α) : Prop :=
  ∃ before m between m' after, visited = before ++ m :: (between ++ m' :: after) ∧
    m.state.control = .force T ∧ (∀ m₁ ∈ between, ¬ m₁.state.Answers m.state.frames) ∧
    m'.state.control = .force T'

/-- **While a tail is computed, only proper parts of it are forced.** -/
theorem Unfolds.partOf_of_forced (h : Unfolds src [g] s visited seen ended t) (hs : s.InReach)
    (hforced : ForcedDuring visited T T') : T'.PartOf T := by
  obtain ⟨before, m, between, m', after, rfl, hT, hbusy, hT'⟩ := hforced
  have hreach := h.invariant hs (fun hs => hs.next) (fun hs hstep => (hs.stream hstep).2) m
    (List.mem_append_right _ (List.mem_cons_self ..))
  obtain ⟨seen, hfrom⟩ := h.from_moment
  obtain ⟨g', ⟨control, frames, demand, trace⟩⟩ := m
  cases hT
  let start : State τ α := ⟨.force T, [], demand, trace⟩
  have hnot : ¬ (start.above frames).Answers frames := by
    rintro ⟨-, ⟨o, tail, hcontrol⟩ | hcontrol⟩ <;> cases hcontrol
  have hfrom : Unfolds src [g] (start.above frames) _ seen ended t := hfrom
  obtain ⟨u, later, hvisited, hu, hstep, hlater⟩ := hfrom.of_busy hnot
  obtain ⟨-, rfl⟩ := List.cons.inj hvisited
  cases hu
  have hcomputes : (Machine.force start T).Computes T :=
    Or.inl (Machine.force_seeks nofun .refl)
  obtain ⟨u, hu, hcomputes⟩ := hlater.computes (hreach.next hstep) hcomputes hbusy
  have hforce : u.control = .force T' := by
    rw [hu] at hT'
    exact hT'
  -- a state that forces a tail has found nothing yet
  rcases hcomputes with ⟨hcontrol, -⟩ | howes
  · rw [hforce] at hcontrol
    exact hcontrol
  · rw [hforce] at howes
    exact howes.elim

end LazyGrammar

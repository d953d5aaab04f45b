import LazyGrammar.Proofs.Search.Evaluation

/-!
# LazyGrammar.Proofs.Search.Walking

**A walk keeps its stack and its values in step.** A walk over runs of items has one vector of
values for all of its frames. Values are dropped from it only when the next item succeeds, so it
may hold more than the frames on the stack have given: what items gave that are popped already.
Every frame still finds the values of the run below it (`Walk.InStep`), whichever frames have been
popped and whatever their items gave.

Design points:

* `CurrentRun` is the invariant of the frames below the topmost one: successes, each where the one
  before it ended, with their values. It looks at the vector only below its own depth, so a longer
  or later end of the vector does not matter to it (`CurrentRun.congr`).
* That an item does not end before its start is known of the tails on the stack, which are within
  a search ahead of the place where the item was tried (`Tail.Within`).
* `Walk.After` counts the calls for the next outcome. Any number of steps may be taken in one
  call, in any grammars of a set, so rules may be made meanwhile.
-/

namespace LazyGrammar

variable {τ α σ ρ : Type}

/-! ### Stacks in step -/

namespace Visit

/-- The number of items before a frame. -/
def depth : Visit τ α ρ → Nat
  | .start depth _ => depth
  | .visit depth _ _ _ => depth

/-- Where the item of a frame is tried. -/
def position : Visit τ α ρ → Nat
  | .start _ place => place.consumed
  | .visit _ position _ _ => position

end Visit

/-- The frames of a walk, from the bottom to the top. -/
def Walk.frames (w : Walk τ α ρ) : List (Visit τ α ρ) := w.stack.reverse

/-- The stack of a walk and its values are in step. -/
structure Walk.InStep (w : Walk τ α ρ) : Prop where
  /-- Depths are 0, 1, 2 and so on from the bottom to the top. -/
  depths : w.frames.map Visit.depth = List.range w.frames.length
  positions : (w.frames.map Visit.position).Pairwise (· < ·)
  /-- All frames below the topmost one are those of items that have given a success. -/
  visited : ∀ i, i + 1 < w.frames.length → ∃ start o tail v,
    w.frames[i]? = some (.visit i start o tail) ∧ o.result = .ok v
  /-- The values of the run below a frame are there. -/
  values : ∀ frame ∈ w.frames, frame.depth ≤ w.values.length ∧ ∀ i < frame.depth,
    ∃ start o tail v, w.frames[i]? = some (.visit i start o tail) ∧ o.result = .ok v ∧
      w.values[i]? = some v
  /-- A frame starts where the outcome of the frame below it ended. -/
  next : ∀ i depth start o tail frame, w.frames[i]? = some (.visit depth start o tail) →
    w.frames[i + 1]? = some frame →
    frame.position = o.place.consumed ∧
      ∀ depth' place, frame = .start depth' place → place = o.place

/-- A stack of successes, the deepest first, that make up a run of `depth` items which ends at a
place. Their values are the first ones of a vector. -/
inductive CurrentRun (src : Source τ) (values : List α) :
    List (Visit τ α (Tail τ α)) → Nat → Place → Prop
  | nil {p : Place} : CurrentRun src values [] 0 p
  | visit {below : List (Visit τ α (Tail τ α))} {depth : Nat} {p : Place} {o : Outcome τ α}
      {tail : Tail τ α} {v : α} (hbelow : CurrentRun src values below depth p)
      (hresult : o.result = .ok v) (hvalue : values[depth]? = some v)
      (hahead : p.consumed < o.place.consumed) (htail : tail.Within Scope.everything src p) :
      CurrentRun src values (.visit depth p.consumed o tail :: below) (depth + 1) o.place

/-- A frame for an item after a run: the item has not been tried, or some outcome of it has been
given. -/
inductive Visit.Tops (src : Source τ) (depth : Nat) (p : Place) :
    Visit τ α (Tail τ α) → Prop
  | start : Tops src depth p (.start depth p)
  | visit {o : Outcome τ α} {tail : Tail τ α} (htail : tail.Within Scope.everything src p) :
      Tops src depth p (.visit depth p.consumed o tail)

/-- A walk whose stack is empty or has a run below its topmost frame. -/
def Walk.Steady (src : Source τ) (w : Walk τ α (Tail τ α)) : Prop :=
  w.stack = [] ∨ ∃ top below depth p, w.stack = top :: below ∧ top.Tops src depth p ∧
    CurrentRun src w.values below depth p

variable {src : Source τ} {values values' : List α} {below : List (Visit τ α (Tail τ α))}
  {depth : Nat} {p : Place} {top : Visit τ α (Tail τ α)} {w w' : Walk τ α (Tail τ α)}

theorem Visit.Tops.depth_eq (h : top.Tops src depth p) : top.depth = depth := by
  cases h <;> rfl

theorem Visit.Tops.position_eq (h : top.Tops src depth p) : top.position = p.consumed := by
  cases h <;> rfl

theorem Visit.Tops.place_eq (h : top.Tops src depth p) (depth' : Nat) (place : Place)
    (hstart : top = .start depth' place) : place = p := by
  cases h <;> cases hstart
  rfl

namespace CurrentRun

theorem length_eq (h : CurrentRun src values below depth p) : below.length = depth := by
  induction h with
  | nil => rfl
  | visit _ _ _ _ _ ih => rw [List.length_cons, ih]

theorem depth_le (h : CurrentRun src values below depth p) : depth ≤ values.length := by
  cases h with
  | nil => exact Nat.zero_le _
  | visit _ _ hvalue => exact (List.getElem?_eq_some_iff.1 hvalue).1

/-- A run only looks at the values before its end. -/
theorem congr (h : CurrentRun src values below depth p)
    (hvalues : ∀ i < depth, values'[i]? = values[i]?) : CurrentRun src values' below depth p := by
  induction h with
  | nil => exact .nil
  | visit _ hresult hvalue hahead htail ih =>
    refine .visit (ih fun i hi => hvalues i (by omega)) hresult ?_ hahead htail
    rw [hvalues _ (Nat.lt_succ_self _), hvalue]

theorem depths (h : CurrentRun src values below depth p) :
    below.reverse.map Visit.depth = List.range depth := by
  induction h with
  | nil => rfl
  | visit _ _ _ _ _ ih =>
    rw [List.reverse_cons, List.map_append, ih, List.range_succ]
    rfl

/-- Positions grow from item to item, up to the end of the run. -/
theorem positions (h : CurrentRun src values below depth p) :
    (below.reverse.map Visit.position ++ [p.consumed]).Pairwise (· < ·) := by
  induction h with
  | nil => exact List.pairwise_singleton _ _
  | @visit below depth p o tail v _ _ _ hahead _ ih =>
    rw [List.reverse_cons, List.map_append, List.map_singleton, Visit.position]
    refine List.pairwise_append.2 ⟨ih, List.pairwise_singleton _ _, fun c hc c' hc' => ?_⟩
    obtain rfl := List.mem_singleton.1 hc'
    -- all items before the last one start before it
    rcases List.mem_append.1 hc with hc | hc
    · have hbefore := (List.pairwise_append.1 ih).2.2 c hc p.consumed (List.mem_singleton.2 rfl)
      exact hbefore.trans hahead
    · obtain rfl := List.mem_singleton.1 hc
      exact hahead

theorem visited (h : CurrentRun src values below depth p) (i : Nat) (hi : i < depth) :
    ∃ start o tail v, below.reverse[i]? = some (.visit i start o tail) ∧ o.result = .ok v ∧
      values[i]? = some v := by
  induction h with
  | nil => exact absurd hi (Nat.not_lt_zero i)
  | @visit below depth p o tail v hbelow hresult hvalue _ _ ih =>
    have hlength : below.reverse.length = depth := by rw [List.length_reverse, hbelow.length_eq]
    rw [List.reverse_cons]
    rcases Nat.lt_succ_iff_lt_or_eq.1 hi with hlt | rfl
    · obtain ⟨start, o', tail', v', hframe, hrest⟩ := ih hlt
      exact ⟨start, o', tail', v', by rw [List.getElem?_append_left (by omega), hframe], hrest⟩
    · exact ⟨p.consumed, o, tail, v, by simp [← hlength], hresult, hvalue⟩

/-- Each item starts where the one before it ended, and so does what stands on top of a run. -/
theorem next (h : CurrentRun src values below depth p) (htop : top.Tops src depth p)
    {i depth' start : Nat} {o : Outcome τ α} {tail : Tail τ α} {frame : Visit τ α (Tail τ α)}
    (hframe : (below.reverse ++ [top])[i]? = some (.visit depth' start o tail))
    (hnext : (below.reverse ++ [top])[i + 1]? = some frame) :
    frame.position = o.place.consumed ∧
      ∀ depth' place, frame = .start depth' place → place = o.place := by
  induction h generalizing top with
  | nil => simp at hnext
  | @visit below depth p o' tail' v hbelow _ _ _ htail' ih =>
    rw [List.reverse_cons] at hframe hnext
    have hlength :
        (below.reverse ++ [Visit.visit depth p.consumed o' tail']).length = depth + 1 := by
      rw [List.length_append, List.length_reverse, hbelow.length_eq]
      rfl
    rcases Nat.lt_trichotomy i depth with hlt | rfl | hgt
    · rw [List.getElem?_append_left (by omega)] at hframe hnext
      exact ih (.visit htail') hframe hnext
    · -- the two frames are the last one of the run and the one on top
      rw [List.getElem?_append_left (by omega), List.getElem?_append_right
        (by rw [List.length_reverse, hbelow.length_eq]), List.length_reverse,
        hbelow.length_eq, Nat.sub_self] at hframe
      rw [List.getElem?_append_right (by omega), hlength, Nat.sub_self] at hnext
      cases hframe
      cases hnext
      exact ⟨htop.position_eq, htop.place_eq⟩
    · rw [List.getElem?_append_right (by omega), hlength] at hnext
      have hpast : i + 1 - (depth + 1) ≠ 0 := by omega
      rw [List.getElem?_singleton, if_neg hpast] at hnext
      cases hnext

end CurrentRun

theorem Walk.Steady.inStep (h : w.Steady src) : w.InStep := by
  obtain ⟨item, info, crumbs, collect, values, stack⟩ := w
  rcases h with hnil | ⟨top, below, depth, p, hstack, htop, hrun⟩
  · cases hnil
    constructor <;> simp [Walk.frames]
  · cases hstack
    have hframes : Walk.frames ⟨item, info, crumbs, collect, values, top :: below⟩
        = below.reverse ++ [top] := List.reverse_cons
    have hlength : (below.reverse ++ [top]).length = depth + 1 := by
      rw [List.length_append, List.length_reverse, hrun.length_eq]
      rfl
    -- what a frame of the run is in the whole stack
    have hvisited : ∀ i < depth, ∃ start o tail v,
        (below.reverse ++ [top])[i]? = some (.visit i start o tail) ∧ o.result = .ok v ∧
          values[i]? = some v := by
      intro i hi
      obtain ⟨start, o, tail, v, hframe, hrest⟩ := hrun.visited i hi
      refine ⟨start, o, tail, v, ?_, hrest⟩
      rw [List.getElem?_append_left (List.getElem?_eq_some_iff.1 hframe).1, hframe]
    have hdepths : (below.reverse ++ [top]).map Visit.depth = List.range (depth + 1) := by
      rw [List.map_append, hrun.depths, List.range_succ, ← htop.depth_eq]
      rfl
    refine ⟨?_, ?_, ?_, ?_, ?_⟩
    · rw [hframes, hlength, hdepths]
    · rw [hframes, List.map_append, List.map_singleton, htop.position_eq]
      exact hrun.positions
    · rw [hframes, hlength]
      intro i hi
      obtain ⟨start, o, tail, v, hframe, hresult, -⟩ := hvisited i (by omega)
      exact ⟨start, o, tail, v, hframe, hresult⟩
    · rw [hframes]
      intro frame hframe
      have hmem : frame.depth ∈ List.range (depth + 1) :=
        hdepths ▸ List.mem_map_of_mem hframe
      have hle : frame.depth ≤ depth := Nat.lt_succ_iff.1 (List.mem_range.1 hmem)
      exact ⟨hle.trans hrun.depth_le, fun i hi => hvisited i (hi.trans_le hle)⟩
    · rw [hframes]
      exact fun i depth' start o tail frame => hrun.next htop

/-! ### Calls -/

/-- Steps, each of which is taken in one of some grammars. -/
def Machine.GoesOn (gs : Set (Grammar τ α σ)) (src : Source τ) : State τ α → State τ α → Prop :=
  Relation.ReflTransGen fun s s' => ∃ g ∈ gs, Machine.step g src s = .next s'

/-- A call for the next outcome of a walk, and what it leaves of the walk. A call that finds no
outcome has used the stack up. -/
inductive Walk.Next (gs : Set (Grammar τ α σ)) (src : Source τ) (w : Walk τ α (Tail τ α)) :
    Option (Outcome τ α) → Walk τ α (Tail τ α) → Prop
  | given {w' : Walk τ α (Tail τ α)} {o : Outcome τ α} {demand demand' : Nat}
      {trace trace' : Trace} (h : Machine.GoesOn gs src ⟨.walk w, [], demand, trace⟩
        ⟨.give o (.walking w'), [], demand', trace'⟩) : Next gs src w (some o) w'
  | ended {w' : Walk τ α (Tail τ α)} {demand demand' : Nat} {trace trace' : Trace}
      (h : Machine.GoesOn gs src ⟨.walk w, [], demand, trace⟩ ⟨.walk w', [], demand', trace'⟩)
      (hstack : w'.stack = []) : Next gs src w none w'

/-- A walk after a number of calls for the next outcome. -/
inductive Walk.After (gs : Set (Grammar τ α σ)) (src : Source τ) (w₀ : Walk τ α (Tail τ α)) :
    Nat → Walk τ α (Tail τ α) → Prop
  | zero : After gs src w₀ 0 w₀
  | succ {n : Nat} {w w' : Walk τ α (Tail τ α)} {o : Option (Outcome τ α)}
      (before : After gs src w₀ n w) (hnext : w.Next gs src o w') : After gs src w₀ (n + 1) w'

/-- The states of a walk on its own: it looks for the next frame, the search for an outcome of an
item is above its frame, an outcome of the walk is given, or there is none. -/
inductive Walking (src : Source τ) : State τ α → Prop
  | walk {w : Walk τ α (Tail τ α)} {demand : Nat} {trace : Trace} (hw : w.Steady src) :
      Walking src ⟨.walk w, [], demand, trace⟩
  | item {w : Walk τ α (Tail τ α)} {s : State τ α} {depth : Nat} {p : Place}
      (hrun : CurrentRun src w.values w.stack depth p)
      (hs : s.Within Scope.everything src p) : Walking src (s.over (.item w depth p.consumed))
  | given {o : Outcome τ α} {w : Walk τ α (Tail τ α)} {demand : Nat} {trace : Trace}
      (hw : w.Steady src) : Walking src ⟨.give o (.walking w), [], demand, trace⟩
  | ended {demand : Nat} {trace : Trace} : Walking src ⟨.finish, [], demand, trace⟩

variable {g : Grammar τ α σ} {gs : Set (Grammar τ α σ)} {s s' : State τ α} {o : Outcome τ α}
  {tail : Tail τ α}

theorem Machine.Steps.goesOn (h : Machine.Steps g src s s') : Machine.GoesOn {g} src s s' :=
  Relation.ReflTransGen.mono (fun _ _ hstep => ⟨g, rfl, hstep⟩) _ _ h

/-- A walk whose topmost frame has been popped. -/
theorem CurrentRun.steady (h : CurrentRun src w.values w.stack depth p) : w.Steady src := by
  obtain ⟨item, info, crumbs, collect, values, stack⟩ := w
  cases h with
  | nil => exact .inl rfl
  | visit hbelow _ _ _ htail => exact .inr ⟨_, _, _, _, rfl, .visit htail, hbelow⟩

namespace Walking

/-- An outcome of an item is put on the stack, and after a success the next item. The values of
later items than that are dropped. -/
theorem takeItem (hrun : CurrentRun src w.values w.stack depth p) (ho : o.Fits src p)
    (htail : tail.Within Scope.everything src p) (hframes : s.frames = []) :
    Walking src (Machine.takeItem w depth p.consumed o tail s) := by
  obtain ⟨control, frames, demand, trace⟩ := s
  cases hframes
  have hvisited : Walk.Steady src
      ({ w with stack := .visit depth p.consumed o tail :: w.stack } : Walk τ α (Tail τ α)) :=
    .inr ⟨_, _, _, _, rfl, .visit htail, hrun⟩
  unfold Machine.takeItem
  split
  · exact .given hvisited
  · next v hresult =>
    split
    · exact .given hvisited
    · next hmoved =>
      have hlength : (w.values.take depth).length = depth :=
        List.length_take_of_le hrun.depth_le
      have hkept : CurrentRun src (w.values.take depth ++ [v]) w.stack depth p := by
        refine hrun.congr fun i hi => ?_
        rw [List.getElem?_append_left (by omega), List.getElem?_take_of_lt hi]
      have hvalue : (w.values.take depth ++ [v])[depth]? = some v := by
        rw [List.getElem?_append_right (by omega), hlength, Nat.sub_self]
        rfl
      have hahead : p.consumed < o.place.consumed :=
        Nat.lt_of_le_of_ne ho.way.consumed_le (Ne.symm hmoved)
      exact .given (.inr ⟨_, _, _, _, rfl, .start, hkept.visit hresult hvalue hahead htail⟩)

/-- **A step keeps stack and values in step.** -/
theorem next (h : Walking src s) (hstep : Machine.step g src s = .next s') : Walking src s' := by
  cases h with
  | @walk w demand trace hw =>
    obtain ⟨item, info, crumbs, collect, values, stack⟩ := w
    rcases hw with hnil | ⟨top, below, depth, p, hstack, htop, hrun⟩
    · cases hnil
      cases hstep
      exact .ended
    · cases hstack
      cases htop with
      | start =>
        cases hstep
        exact .item (w := ⟨item, info, crumbs, collect, values, below⟩)
          (s := ⟨.call item p crumbs, [], demand, trace⟩) hrun ⟨p, ⟨.refl, trivial, trivial⟩, .refl⟩
      | @visit o tail htail =>
        cases hstep
        exact .item (w := ⟨item, info, crumbs, collect, values, below⟩)
          (s := ⟨.force tail, [], demand, trace⟩) hrun ⟨p, htail, .refl⟩
  | @item w s depth p hrun hs =>
    rcases Machine.step_over_next hstep with ⟨u, hu, rfl⟩ |
      ⟨o, tail, hcontrol, hframes, hdeliver⟩ | ⟨-, -, rfl⟩
    · have hwithin := Machine.step_within (Scope.everything_kept g src) hs
      rw [hu] at hwithin
      exact .item hrun hwithin
    · obtain ⟨q, hgive, way⟩ := hs
      rw [hcontrol] at hgive
      rw [hframes] at way
      cases hdeliver
      exact takeItem hrun (hgive.1.of_leads way) (hgive.2.of_leads way) rfl
    · exact .walk hrun.steady
  | given => cases hstep
  | ended => cases hstep

theorem goesOn (h : Walking src s) (hgoes : Machine.GoesOn gs src s s') : Walking src s' := by
  induction hgoes with
  | refl => exact h
  | tail _ hstep ih =>
    obtain ⟨g, -, hstep⟩ := hstep
    exact ih.next hstep

/-- What is left of a walk that has given an outcome is a walk. -/
theorem of_give (h : Walking src s) (hcontrol : s.control = .give o tail)
    (hframes : s.frames = []) : ∃ w, tail = .walking w ∧ w.Steady src := by
  cases h with
  | walk => cases hcontrol
  | item => simp [State.over] at hframes
  | given hw =>
    cases hcontrol
    exact ⟨_, rfl, hw⟩
  | ended => cases hcontrol

/-- A walk ends where it looks for a frame and has none. -/
theorem of_finish (h : Walking src s) (hstep : Machine.step g src s = .next s')
    (hcontrol : s'.control = .finish) (hframes : s'.frames = []) :
    ∃ w demand trace, s = ⟨.walk w, [], demand, trace⟩ ∧ w.stack = [] := by
  cases h with
  | @walk w demand trace hw =>
    refine ⟨w, demand, trace, rfl, ?_⟩
    obtain ⟨item, info, crumbs, collect, values, stack⟩ := w
    rcases hw with hnil | ⟨top, below, depth, p, hstack, htop, -⟩
    · exact hnil
    · cases hstack
      cases htop <;> cases hstep <;> cases hframes
  | item hrun hs =>
    rcases Machine.step_over_next hstep with ⟨u, -, rfl⟩ | ⟨o, tail, -, -, hdeliver⟩ | ⟨-, -, rfl⟩
    · simp [State.over] at hframes
    · cases hdeliver
      unfold Machine.takeItem at hcontrol
      split at hcontrol
      · cases hcontrol
      · split at hcontrol <;> cases hcontrol
    · cases hcontrol
  | given => cases hstep
  | ended => cases hstep

end Walking

namespace Walk

theorem Next.steady {o : Option (Outcome τ α)} (h : w.Next gs src o w') (hw : w.Steady src) :
    w'.Steady src := by
  cases h with
  | given h =>
    obtain ⟨w₁, hw₁, hsteady⟩ := ((Walking.walk hw).goesOn h).of_give rfl rfl
    cases hw₁
    exact hsteady
  | ended _ hstack => exact .inl hstack

/-- Calls keep stack and values in step. -/
theorem After.steady {n : Nat} (h : w.After gs src n w') (hw : w.Steady src) : w'.Steady src := by
  induction h with
  | zero => exact hw
  | succ _ hnext ih => exact hnext.steady ih

/-- A call that is run. -/
theorem After.run {n : Nat} {demand : Nat} {trace : Trace} (h : After {g} src w n w') (steps : Nat)
    {w'' : Walk τ α (Tail τ α)} (hrun : Machine.run g src steps ⟨.walk w', [], 1, .silent⟩
      = .next ⟨.give o (.walking w''), [], demand, trace⟩) : After {g} src w (n + 1) w'' :=
  h.succ (.given (Machine.Steps.of_run hrun).goesOn)

/-- The walk of a repetition that begins. -/
theorem steady_begin (src : Source τ) (item : Rule) (info : RuleInfo) (crumbs : Crumbs)
    (collect : List α → α) (place : Place) :
    Steady src ⟨item, info, crumbs, collect, [], [.start 0 place]⟩ :=
  .inr ⟨_, _, _, _, rfl, .start, .nil⟩

/-! ### Calls return -/

/-- What is left of a walk delivers what the walk delivers. -/
theorem comes_of_walking {control : Control τ α} (hcontrol : control ≠ .force (.walking w))
    (h : Comes g src (State.goTo · (.force (.walking w))) control) :
    Comes g src (State.goTo · (.walk w)) control := by
  intro s
  obtain ⟨s', hsteps, hs', hframes⟩ := h s
  rcases hsteps.cases_head with rfl | ⟨s₁, hstep, hrest⟩
  · exact absurd hs'.symm hcontrol
  · cases hstep
    exact ⟨s', hrest, hs', hframes⟩

theorem delivers_of_walking {os : List (Outcome τ α)}
    (h : Delivers g src (State.goTo · (.force (.walking w))) os) :
    Delivers g src (State.goTo · (.walk w)) os := by
  cases os with
  | nil => exact comes_of_walking nofun h
  | cons o os =>
    obtain ⟨tail, hcomes, hrest⟩ := h
    exact ⟨tail, comes_of_walking nofun hcomes, hrest⟩

/-- A walk that has outcomes to deliver, or none, returns from the next call. -/
theorem exists_next {os : List (Outcome τ α)} (hw : w.Steady src)
    (h : Delivers g src (State.goTo · (.walk w)) os) :
    ∃ o w' os', w.Next {g} src o w' ∧ Delivers g src (State.goTo · (.walk w')) os' := by
  have hwalking : Walking src (⟨.walk w, [], 0, .silent⟩ : State τ α) := .walk hw
  cases os with
  | nil =>
    obtain ⟨s', hsteps, hcontrol, hframes⟩ := h ⟨.finish, [], 0, .silent⟩
    rcases hsteps.cases_tail with rfl | ⟨s₁, hsteps, hstep⟩
    · cases hcontrol
    · have hgoes := Machine.Steps.goesOn hsteps
      obtain ⟨w', demand, trace, rfl, hstack⟩ :=
        (hwalking.goesOn hgoes).of_finish hstep hcontrol hframes
      refine ⟨none, w', [], .ended hgoes hstack, (Becomes.of_step fun s => ?_).delivers .finish⟩
      simp only [Machine.step, Machine.walk, State.goTo, hstack]
  | cons o os =>
    obtain ⟨tail, hcomes, hrest⟩ := h
    obtain ⟨⟨control, frames, demand, trace⟩, hsteps, hcontrol, hframes⟩ :=
      hcomes ⟨.finish, [], 0, .silent⟩
    cases hcontrol
    cases hframes
    have hgoes := Machine.Steps.goesOn hsteps
    obtain ⟨w', rfl, -⟩ := (hwalking.goesOn hgoes).of_give rfl rfl
    exact ⟨some o, w', os, .given hgoes, delivers_of_walking hrest⟩

/-- **All calls return**, in a complete grammar whose functions never give up on the values of an
item, on a finite input. -/
theorem exists_after {item : Rule} (info : RuleInfo) (crumbs : Crumbs) (collect : List α → α)
    (place : Place) (tokens : List τ) (hcomplete : g.Complete item) (htotal : g.Total item)
    (n : Nat) :
    ∃ w, After {g} (Source.ofList tokens) ⟨item, info, crumbs, collect, [], [.start 0 place]⟩ n w ∧
      w.Steady (Source.ofList tokens) ∧
      ∃ os, Delivers g (Source.ofList tokens) (State.goTo · (.walk w)) os := by
  induction n with
  | zero =>
    refine ⟨_, .zero, steady_begin _ item info crumbs collect place, ?_⟩
    have hpending : Pending g tokens (fun q => g.outcomes tokens item q crumbs) info collect place
        [] [.start 0 place] _ := .start .refl (List.prefix_refl []) .nil
    exact ⟨_, delivers_walk (fun q => g.outcomes_fits item q crumbs)
      (fun q _ => delivers_call tokens hcomplete htotal q crumbs) hpending (List.prefix_refl _)⟩
  | succ n ih =>
    obtain ⟨w, hafter, hsteady, os, hdelivers⟩ := ih
    obtain ⟨o, w', os', hnext, hrest⟩ := exists_next hsteady hdelivers
    exact ⟨w', hafter.succ hnext, hnext.steady hsteady, os', hrest⟩

end Walk

/-- **A walk keeps its stack and its values in step**, after every number of calls for the next
outcome: whatever its item is, wherever it starts and whatever the input is, also when rules are
made in between. In a complete grammar whose functions never give up, on a finite input, all of
these calls return. -/
theorem walk_in_step (item : Rule) (info : RuleInfo) (crumbs : Crumbs) (collect : List α → α)
    (place : Place) :
    (∀ (gs : Set (Grammar τ α σ)) (src : Source τ) (n : Nat) (w : Walk τ α (Tail τ α)),
      Walk.After gs src ⟨item, info, crumbs, collect, [], [.start 0 place]⟩ n w → w.InStep) ∧
    ∀ (g : Grammar τ α σ) (tokens : List τ), g.Complete item → g.Total item → ∀ n, ∃ w,
      Walk.After {g} (Source.ofList tokens) ⟨item, info, crumbs, collect, [], [.start 0 place]⟩
        n w := by
  refine ⟨fun gs src n w h => ?_, fun g tokens hcomplete htotal n => ?_⟩
  · exact (h.steady (Walk.steady_begin src item info crumbs collect place)).inStep
  · obtain ⟨w, hafter, -⟩ :=
      Walk.exists_after info crumbs collect place tokens hcomplete htotal n
    exact ⟨w, hafter⟩

/-- Runs of sums. The sixth call has gone back to the second item, whose value before is still
there, as it has given no other one since. -/
theorem sums_walk_in_step :
    Grammar.sums.Complete ⟨6⟩ ∧ Grammar.sums.Total ⟨6⟩ ∧
    (∀ n, ∃ w, Walk.After {Grammar.sums} (Source.ofList ['1', '2'])
      ⟨⟨6⟩, ⟨7, .repetition, none⟩, .root, Grammar.decimal, [], [.start 0 ⟨0, 0⟩]⟩ n w) ∧
    ∃ w, Walk.After {Grammar.sums} (Source.ofList ['1', '2'])
        ⟨⟨6⟩, ⟨7, .repetition, none⟩, .root, Grammar.decimal, [], [.start 0 ⟨0, 0⟩]⟩ 6 w ∧
      w.values = [1, 2] ∧ w.frames.map Visit.position = [0, 1] ∧ w.InStep := by
  have hwalk := walk_in_step (τ := Char) (σ := Unit) ⟨6⟩ ⟨7, .repetition, none⟩ .root
    Grammar.decimal ⟨0, 0⟩
  have hcalls : Walk.After {Grammar.sums} (Source.ofList ['1', '2'])
      ⟨⟨6⟩, ⟨7, .repetition, none⟩, .root, Grammar.decimal, [], [.start 0 ⟨0, 0⟩]⟩ 6 _ :=
    (((((Walk.After.zero.run 12 rfl).run 12 rfl).run 12 rfl).run 18 rfl).run 16 rfl).run 15 rfl
  exact ⟨Grammar.sums_complete, Grammar.sums_total,
    hwalk.2 _ _ Grammar.sums_complete Grammar.sums_total, _, hcalls, rfl, rfl,
    hwalk.1 _ _ _ _ hcalls⟩

end LazyGrammar

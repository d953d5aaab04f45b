import LazyGrammar.Proofs.Search.Unfolding

/-!
# LazyGrammar.Proofs.Search.Bounds

**How far a search has got**, from both sides. All places of a search are within reach of the
tokens that the source has been asked for (`State.InReach`), and every place that the search
has got to comes out with an outcome that is at least as far (`Control.Owes`). Between the two,
the number of requests is read off from the tokens that were taken (`Unfolds.lt_demand_iff`).
-/

namespace LazyGrammar

variable {τ α σ : Type}

/-! ### Places within reach -/

/-- A place of a search from the start of the input, where the source has been asked for `d`
tokens: the next token is one of them. -/
def Place.InReach (d : Nat) (p : Place) : Prop := p.consumed = p.next ∧ p.next < d

/-- An outcome within reach. A failure is put down where its error is. -/
structure Outcome.InReach (d : Nat) (o : Outcome τ α) : Prop where
  place : o.place.InReach d
  error : ∀ e, o.result = .error e → e.consumed = o.place.consumed

/-- A tail whose work starts at places within reach. -/
inductive Tail.InReach (d : Nat) : Tail τ α → Prop
  | done : InReach d .done
  | mapped {f : α → Except Fault α} {inner : Tail τ α} (hinner : InReach d inner) :
      InReach d (.mapped f inner)
  | orElse {first : Tail τ α} {later : Later} (hfirst : InReach d first)
      (hlater : later.place.InReach d) : InReach d (.orElse first later)
  | chained {inner outer : Tail τ α} {chain : Chain α} (hinner : InReach d inner)
      (houter : InReach d outer) : InReach d (.chained inner outer chain)
  | walking {w : Walk τ α (Tail τ α)}
      (hstart : ∀ depth place, .start depth place ∈ w.stack → place.InReach d)
      (hvisit : ∀ depth start o tail, .visit depth start o tail ∈ w.stack → InReach d tail) :
      InReach d (.walking w)

/-- A walk whose work starts at places within reach. -/
structure Walk.InReach (d : Nat) (w : Walk τ α (Tail τ α)) : Prop where
  start : ∀ depth place, .start depth place ∈ w.stack → place.InReach d
  visit : ∀ depth start o tail, .visit depth start o tail ∈ w.stack → tail.InReach d

/-- What a frame has put off starts at places within reach. -/
def Frame.InReach (d : Nat) : Frame τ α → Prop
  | .map _ | .chainOuter _ => True
  | .orElse later => later.place.InReach d
  | .chainInner outer _ => outer.InReach d
  | .item w _ _ => w.InReach d

/-- What is to be done now starts at places within reach. -/
def Control.InReach (d : Nat) : Control τ α → Prop
  | .call _ place _ | .follow _ place _ | .continue _ place => place.InReach d
  | .force tail => tail.InReach d
  | .walk w => w.InReach d
  | .give o tail => o.InReach d ∧ tail.InReach d
  | .finish | .fail _ => True

/-- All places of a search are within reach of the requests made so far. -/
structure State.InReach (s : State τ α) : Prop where
  control : s.control.InReach s.demand
  frames : ∀ frame ∈ s.frames, frame.InReach s.demand

/-- Whatever comes of a step is within reach. -/
def Progress.InReach : Progress τ α → Prop
  | .next s | .waiting _ s => s.InReach
  | .stream o tail s => o.InReach s.demand ∧ (s.goTo (.force tail)).InReach
  | .nothing _ | .fault _ | .circular => True

variable {g : Grammar τ α σ} {src : Source τ} {s s' t : State τ α} {p : Place} {crumbs : Crumbs}
  {d d' c n : Nat} {o : Outcome τ α} {tail : Tail τ α} {e : ParseError τ}

theorem Place.InReach.mono (h : p.InReach d) (hle : d ≤ d') : p.InReach d' :=
  ⟨h.1, Nat.lt_of_lt_of_le h.2 hle⟩

theorem Tail.InReach.mono (h : tail.InReach d) (hle : d ≤ d') : tail.InReach d' := by
  induction h with
  | done => exact .done
  | mapped _ ih => exact .mapped ih
  | orElse _ hlater ih => exact .orElse ih (hlater.mono hle)
  | chained _ _ ihinner ihouter => exact .chained ihinner ihouter
  | walking hstart _ ih =>
      exact .walking (fun depth place hmem => (hstart depth place hmem).mono hle) ih

theorem Frame.InReach.mono {frame : Frame τ α} (h : frame.InReach d) (hle : d ≤ d') :
    frame.InReach d' := by
  cases frame with
  | map f => trivial
  | orElse later => exact Place.InReach.mono h hle
  | chainOuter chain => trivial
  | chainInner outer chain => exact Tail.InReach.mono h hle
  | item w depth start =>
      exact ⟨fun depth place hmem => (h.start depth place hmem).mono hle,
        fun depth start o tail hmem => (h.visit depth start o tail hmem).mono hle⟩

namespace Outcome

theorem inReach_success (h : p.InReach d) (v : α) : (success p v : Outcome τ α).InReach d :=
  ⟨h, fun _ herror => by cases herror⟩

theorem inReach_failure {i : Nat} (h : Place.InReach d ⟨e.consumed, i⟩) :
    (failure e i : Outcome τ α).InReach d := by
  refine ⟨h, fun e' herror => ?_⟩
  cases herror
  rfl

/-- A failure made again of the error of an outcome is where the outcome is. -/
theorem InReach.failure (h : o.InReach d) (herror : o.result = .error e) :
    (Outcome.failure e o.place.next : Outcome τ α).InReach d := by
  refine inReach_failure ?_
  rw [h.error e herror]
  exact h.place

end Outcome

/-! ### Steps stay within reach -/

namespace State

theorem inReach_goTo {control : Control τ α} (hframes : ∀ frame ∈ s.frames, frame.InReach s.demand)
    (hcontrol : control.InReach s.demand) : (s.goTo control).InReach := ⟨hcontrol, hframes⟩

theorem inReach_push {frame : Frame τ α} {control : Control τ α}
    (hframes : ∀ frame ∈ s.frames, frame.InReach s.demand) (hframe : frame.InReach s.demand)
    (hcontrol : control.InReach s.demand) : (s.push frame control).InReach :=
  ⟨hcontrol, List.forall_mem_cons.2 ⟨hframe, hframes⟩⟩

theorem inReach_single (hframes : ∀ frame ∈ s.frames, frame.InReach s.demand)
    (ho : o.InReach s.demand) : (s.single o).InReach := inReach_goTo hframes ⟨ho, .done⟩

end State

namespace Machine

open State

variable {info : RuleInfo}

theorem tryLater_inReach {later : Later} (hframes : ∀ frame ∈ s.frames, frame.InReach s.demand)
    (hlater : later.place.InReach s.demand) : (tryLater later s).InReach := by
  unfold tryLater
  split
  · exact inReach_goTo hframes hlater
  · exact inReach_push hframes hlater hlater

/-- A token that is taken lies within reach, and so does the place after it once the next
token has been asked for. -/
theorem takeToken_inReach {accept : τ → Except Fault (Option α)}
    (hframes : ∀ frame ∈ s.frames, frame.InReach s.demand) (hp : p.InReach s.demand) :
    (takeToken src accept p s).InReach := by
  have hfailure : ∀ reason,
      (Outcome.failure ⟨p.consumed, reason⟩ p.next : Outcome τ α).InReach s.demand :=
    fun _ => Outcome.inReach_failure hp
  unfold takeToken
  split
  · exact inReach_single hframes (hfailure _)
  · split
    · have hle : s.demand ≤ (s.demandAfter p.next).demand := Nat.le_max_left ..
      have hlt : p.next + 1 < (s.demandAfter p.next).demand := Nat.le_max_right ..
      have hframes' : ∀ frame ∈ (s.demandAfter p.next).frames,
          frame.InReach (s.demandAfter p.next).demand :=
        fun frame hframe => (hframes frame hframe).mono hle
      have hadvance : p.advance.InReach (s.demandAfter p.next).demand :=
        ⟨congrArg (· + 1) hp.1, hlt⟩
      exact inReach_single hframes' (Outcome.inReach_success hadvance _)
    · exact inReach_single hframes (hfailure _)
    · exact inReach_goTo hframes trivial

theorem useForm_inReach {form : Form τ α} (hframes : ∀ frame ∈ s.frames, frame.InReach s.demand)
    (hp : p.InReach s.demand) : (useForm src info p crumbs s form).InReach := by
  cases form with
  | terminal accept => exact takeToken_inReach hframes hp
  | epsilon value => exact inReach_single hframes (Outcome.inReach_success hp value)
  | endOfInput value =>
      simp only [useForm, takeEnd]
      split
      · exact inReach_single hframes (Outcome.inReach_success hp value)
      · exact inReach_single hframes (Outcome.inReach_failure hp)
  | map inner f => exact inReach_push hframes trivial hp
  | repetition item collect =>
      refine inReach_goTo hframes ⟨?_, ?_⟩
      · intro depth place hmem
        cases List.mem_singleton.1 hmem
        exact hp
      · intro depth start o tail hmem
        cases List.mem_singleton.1 hmem
  | reference cell weak => exact inReach_goTo hframes hp
  | oneOf first others => exact tryLater_inReach hframes hp
  | sequence first others build => exact inReach_push hframes trivial hp

theorem call_inReach {r : Rule} (hframes : ∀ frame ∈ s.frames, frame.InReach s.demand)
    (hp : p.InReach s.demand) : (call g src r p crumbs s).InReach := by
  unfold call
  split
  · trivial
  · split
    · exact inReach_single hframes (Outcome.inReach_failure hp)
    · exact useForm_inReach hframes hp

theorem advance_inReach {chain : Chain α} (hframes : ∀ frame ∈ s.frames, frame.InReach s.demand)
    (hp : p.InReach s.demand) : (advance chain p s).InReach := by
  unfold advance
  split
  · split
    · exact inReach_single hframes (Outcome.inReach_success hp _)
    · trivial
  · exact inReach_push hframes trivial hp

theorem force_inReach (hframes : ∀ frame ∈ s.frames, frame.InReach s.demand)
    (htail : tail.InReach s.demand) : (force s tail).InReach := by
  cases htail with
  | done => exact inReach_goTo hframes trivial
  | mapped hinner => exact inReach_push hframes trivial hinner
  | orElse hfirst hlater => exact inReach_push hframes hlater hfirst
  | chained hinner houter => exact inReach_push hframes houter hinner
  | walking hstart hvisit => exact inReach_goTo hframes ⟨hstart, hvisit⟩

theorem walk_inReach {w : Walk τ α (Tail τ α)}
    (hframes : ∀ frame ∈ s.frames, frame.InReach s.demand) (hw : w.InReach s.demand) :
    (walk w s).InReach := by
  obtain ⟨hstart, hvisit⟩ := hw
  unfold walk
  split
  · exact inReach_goTo hframes trivial
  · next depth place stack hstack =>
    rw [hstack] at hstart hvisit
    refine inReach_push hframes ⟨?_, ?_⟩ (hstart depth place (List.mem_cons_self ..))
    · exact fun d q hmem => hstart d q (List.mem_cons_of_mem _ hmem)
    · exact fun d i o t hmem => hvisit d i o t (List.mem_cons_of_mem _ hmem)
  · next depth start o tail stack hstack =>
    rw [hstack] at hstart hvisit
    refine inReach_push hframes ⟨?_, ?_⟩ (hvisit depth start o tail (List.mem_cons_self ..))
    · exact fun d q hmem => hstart d q (List.mem_cons_of_mem _ hmem)
    · exact fun d i o t hmem => hvisit d i o t (List.mem_cons_of_mem _ hmem)

/-- The walk comes back to the other outcomes of the item, and goes on after this one. -/
theorem takeItem_inReach {w : Walk τ α (Tail τ α)} {depth start : Nat}
    (hframes : ∀ frame ∈ s.frames, frame.InReach s.demand) (hw : w.InReach s.demand)
    (ho : o.InReach s.demand) (htail : tail.InReach s.demand) :
    (takeItem w depth start o tail s).InReach := by
  have hstart : ∀ d q, .start d q ∈ Visit.visit depth start o tail :: w.stack →
      q.InReach s.demand := by
    intro d q hmem
    exact hw.start d q ((List.mem_cons.1 hmem).resolve_left nofun)
  have hvisit : ∀ d i o' t, .visit d i o' t ∈ Visit.visit depth start o tail :: w.stack →
      t.InReach s.demand := by
    intro d i o' t hmem
    rcases List.mem_cons.1 hmem with heq | hmem
    · cases heq
      exact htail
    · exact hw.visit d i o' t hmem
  unfold takeItem
  split
  · next e herror => exact inReach_goTo hframes ⟨ho.failure herror, .walking hstart hvisit⟩
  · split
    · next hempty =>
      have hcircle : Place.InReach s.demand ⟨start, o.place.next⟩ := hempty ▸ ho.place
      exact inReach_goTo hframes ⟨Outcome.inReach_failure hcircle, .walking hstart hvisit⟩
    · refine inReach_goTo hframes ⟨Outcome.inReach_success ho.place _, .walking ?_ ?_⟩
      · intro d q hmem
        rcases List.mem_cons.1 hmem with heq | hmem
        · cases heq
          exact ho.place
        · exact hstart d q hmem
      · intro d i o' t hmem
        exact hvisit d i o' t ((List.mem_cons.1 hmem).resolve_left nofun)

theorem deliver_inReach {frame : Frame τ α} (hframes : ∀ frame ∈ s.frames, frame.InReach s.demand)
    (hframe : frame.InReach s.demand) (ho : o.InReach s.demand) (htail : tail.InReach s.demand) :
    (deliver o tail s frame).InReach := by
  cases frame with
  | map f =>
      simp only [deliver]
      split
      · exact inReach_goTo hframes ⟨ho, .mapped htail⟩
      · split
        · exact inReach_goTo hframes ⟨Outcome.inReach_success ho.place _, .mapped htail⟩
        · trivial
  | orElse later => exact inReach_goTo hframes ⟨ho, .orElse htail hframe⟩
  | chainOuter chain =>
      simp only [deliver]
      split
      · next e herror => exact inReach_goTo hframes ⟨ho.failure herror, .chained .done htail⟩
      · exact inReach_push hframes htail ho.place
  | chainInner outer chain => exact inReach_goTo hframes ⟨ho, .chained htail hframe⟩
  | item w depth start => exact takeItem_inReach hframes hframe ho htail

theorem finish_inReach {frame : Frame τ α} (hframes : ∀ frame ∈ s.frames, frame.InReach s.demand)
    (hframe : frame.InReach s.demand) : (finish s frame).InReach := by
  cases frame with
  | map f => exact inReach_goTo hframes trivial
  | orElse later => exact tryLater_inReach hframes hframe
  | chainOuter chain => exact inReach_goTo hframes trivial
  | chainInner outer chain => exact inReach_push hframes trivial hframe
  | item w depth start => exact inReach_goTo hframes hframe

/-- **A step stays within reach.** -/
theorem step_inReach (h : s.InReach) : (step g src s).InReach := by
  obtain ⟨control, frames, demand, trace⟩ := s
  obtain ⟨hcontrol, hframes⟩ := h
  cases control with
  | call rule place crumbs => exact call_inReach hframes hcontrol
  | follow cell place crumbs =>
      unfold step follow
      dsimp only
      split
      · exact inReach_goTo hframes hcontrol
      · trivial
      · exact ⟨hcontrol, hframes⟩
      · trivial
  | «continue» chain place => exact advance_inReach hframes hcontrol
  | force tail => exact force_inReach hframes hcontrol
  | walk w => exact walk_inReach hframes hcontrol
  | give o tail =>
      cases frames with
      | nil => exact ⟨hcontrol.1, hcontrol.2, hframes⟩
      | cons frame frames =>
          obtain ⟨hframe, hframes⟩ := List.forall_mem_cons.1 hframes
          exact deliver_inReach hframes hframe hcontrol.1 hcontrol.2
  | finish =>
      cases frames with
      | nil => trivial
      | cons frame frames =>
          obtain ⟨hframe, hframes⟩ := List.forall_mem_cons.1 hframes
          exact finish_inReach hframes hframe
  | fail f => trivial

end Machine

namespace State.InReach

theorem next (h : s.InReach) (hstep : Machine.step g src s = .next s') : s'.InReach := by
  have hreach : (Machine.step g src s).InReach := Machine.step_inReach h
  rw [hstep] at hreach
  exact hreach

theorem stream (h : s.InReach) (hstep : Machine.step g src s = .stream o tail s') :
    o.InReach s'.demand ∧ (s'.goTo (.force tail)).InReach := by
  have hreach : (Machine.step g src s).InReach := Machine.step_inReach h
  rw [hstep] at hreach
  exact hreach

end State.InReach

/-- A search from the start of the input has the first token within reach. -/
theorem State.inReach_calling (root : Rule) (trace : Trace) :
    (State.calling root ⟨0, 0⟩ trace : State τ α).InReach :=
  ⟨⟨rfl, Nat.one_pos⟩, fun _ hframe => by cases hframe⟩

/-! ### Tokens that are taken -/

/-- How far a form gets that takes a token at a place. -/
def Form.taken? (src : Source τ) (place : Place) : Form τ α → Option Nat
  | .terminal accept =>
    match (src.token place.next).map accept with
    | some (.ok (some _)) => some (place.consumed + 1)
    | _ => none
  | _ => none

/-- How far a rule gets that takes a token in this step. -/
def Moment.taken? (src : Source τ) (m : Moment τ α σ) : Option Nat :=
  match m.state.control with
  | .call rule place crumbs => (m.grammar.node? rule).bind fun node =>
    if crumbs.holds node.info.id place.consumed then none else node.form.taken? src place
  | _ => none

/-- How far the rules got that took a token in the visited states, one entry for each time. -/
def taken (src : Source τ) (visited : List (Moment τ α σ)) : List Nat :=
  visited.filterMap (Moment.taken? src)

namespace Moment

variable {r : Rule} {info : RuleInfo} {form : Form τ α}

theorem taken?_held (hcontrol : s.control = .call r p crumbs)
    (hnode : g.node? r = some ⟨info, form⟩) (hheld : crumbs.holds info.id p.consumed = true) :
    (⟨g, s⟩ : Moment τ α σ).taken? src = none := by
  simp [taken?, hcontrol, hnode, hheld]

theorem taken?_fresh (hcontrol : s.control = .call r p crumbs)
    (hnode : g.node? r = some ⟨info, form⟩) (hfresh : crumbs.holds info.id p.consumed = false) :
    (⟨g, s⟩ : Moment τ α σ).taken? src = form.taken? src p := by
  simp [taken?, hcontrol, hnode, hfresh]

/-- Only a call takes a token. -/
theorem taken?_eq_none (h : ¬ ∃ r p crumbs, s.control = .call r p crumbs) :
    (⟨g, s⟩ : Moment τ α σ).taken? src = none := by
  unfold taken?
  split
  · next hcontrol => exact absurd ⟨_, _, _, hcontrol⟩ h
  · rfl

theorem taken?_stream (hstep : Machine.step g src s = .stream o tail s') :
    (⟨g, s⟩ : Moment τ α σ).taken? src = none :=
  taken?_eq_none (by simp [(Machine.step_stream hstep).2.1])

theorem taken?_nothing (hstep : Machine.step g src s = .nothing s') :
    (⟨g, s⟩ : Moment τ α σ).taken? src = none :=
  taken?_eq_none (by simp [(Machine.step_nothing hstep).2.1])

end Moment

namespace Machine

variable {form : Form τ α} {info : RuleInfo}

theorem tryLater_demand (later : Later) (s : State τ α) :
    (tryLater later s).demand = s.demand := by
  unfold tryLater
  split <;> rfl

/-- A form that takes a token makes the search ask for the next one, and no other does. -/
theorem useForm_demand (hp : p.InReach s.demand) :
    n < (useForm src info p crumbs s form).demand ↔
      n < s.demand ∨ form.taken? src p = some n := by
  cases form with
  | terminal accept =>
      simp only [useForm, takeToken, Form.taken?]
      cases src.token p.next with
      | none => simp [State.single, State.goTo]
      | some t =>
          rcases haccept : accept t with f | _ | v
          · simp [haccept, State.goTo]
          · simp [haccept, State.single, State.goTo]
          · -- the token is within reach already, so the one after it is the only new one
            obtain ⟨hp, hlt⟩ := hp
            simp only [haccept, State.single, State.goTo, State.demandAfter, Option.map_some,
              Option.some.injEq]
            omega
  | endOfInput value =>
      simp only [useForm, takeEnd, Form.taken?]
      split <;> simp [State.single, State.goTo]
  | oneOf first others => simp [useForm, tryLater_demand, Form.taken?]
  | _ => simp [useForm, Form.taken?, State.single, State.goTo, State.push]

/-- **A search asks for one more token exactly when it takes one.** -/
theorem step_demand (h : s.InReach) (hstep : step g src s = .next s') :
    n < s'.demand ↔ n < s.demand ∨ (⟨g, s⟩ : Moment τ α σ).taken? src = some n := by
  by_cases hcall : ∃ r p crumbs, s.control = .call r p crumbs
  · obtain ⟨r, p, crumbs, hcontrol⟩ := hcall
    have hp := h.control
    rw [hcontrol] at hp
    simp only [step, hcontrol] at hstep
    obtain ⟨info, form, hnode, ⟨hheld, rfl⟩ | ⟨hfresh, rfl⟩⟩ := call_next hstep
    · simp [Moment.taken?_held hcontrol hnode hheld, State.single, State.goTo]
    · rw [Moment.taken?_fresh hcontrol hnode hfresh]
      exact useForm_demand hp
  · rw [Moment.taken?_eq_none hcall, ((step_next hstep).resolve_left hcall).1]
    simp

end Machine

/-! ### Places come out -/

/-- A place at least as far as `c` is what the search goes on from, so that the next outcome
will be there at least, if the search comes to one. -/
def Control.Owes (c : Nat) : Control τ α → Prop
  | .call _ place _ | .follow _ place _ | .continue _ place => c ≤ place.consumed
  | .give o _ => c ≤ o.place.consumed
  | .walk w => ∃ depth place stack, w.stack = .start depth place :: stack ∧ c ≤ place.consumed
  | .force _ | .finish => False
  | .fail _ => True

namespace Machine

variable {form : Form τ α} {info : RuleInfo}

theorem tryLater_owes {later : Later} (h : c ≤ later.place.consumed) :
    (tryLater later s).control.Owes c := by
  unfold tryLater
  split <;> exact h

theorem useForm_owes (h : c ≤ p.consumed ∨ form.taken? src p = some c) :
    (useForm src info p crumbs s form).control.Owes c := by
  cases form with
  | terminal accept =>
      simp only [Form.taken?] at h
      simp only [useForm, takeToken]
      cases htoken : src.token p.next with
      | none => exact h.resolve_right (by simp [htoken])
      | some t =>
          rcases haccept : accept t with f | _ | v
          · simp only [haccept]
            exact trivial
          · simp only [haccept]
            exact h.resolve_right (by simp [htoken, haccept])
          · simp only [htoken, haccept, Option.map_some, Option.some.injEq] at h ⊢
            show c ≤ p.consumed + 1
            omega
  | endOfInput value =>
      have h := h.resolve_right (by simp [Form.taken?])
      simp only [useForm, takeEnd]
      split <;> exact h
  | repetition item collect => exact ⟨0, p, [], rfl, h.resolve_right (by simp [Form.taken?])⟩
  | oneOf first others => exact tryLater_owes (h.resolve_right (by simp [Form.taken?]))
  | _ => exact h.resolve_right (by simp [Form.taken?])

theorem takeItem_owes {w : Walk τ α (Tail τ α)} {depth start : Nat} (ho : o.InReach d)
    (h : c ≤ o.place.consumed) : (takeItem w depth start o tail s).control.Owes c := by
  unfold takeItem
  split
  · next e herror => exact h.trans_eq (ho.error e herror).symm
  · split
    · next hempty => exact h.trans_eq hempty
    · exact h

theorem deliver_owes {frame : Frame τ α} (ho : o.InReach d) (h : c ≤ o.place.consumed)
    (hstep : deliver o tail s frame = .next s') : s'.control.Owes c := by
  cases frame with
  | map f =>
      simp only [deliver] at hstep
      split at hstep
      · cases hstep
        exact h
      · split at hstep <;> cases hstep
        exact h
  | orElse later =>
      cases hstep
      exact h
  | chainOuter chain =>
      simp only [deliver] at hstep
      split at hstep <;> cases hstep
      · next e herror => exact h.trans_eq (ho.error e herror).symm
      · exact h
  | chainInner outer chain =>
      cases hstep
      exact h
  | item w depth start =>
      cases hstep
      exact takeItem_owes ho h

/-- **What is owed stays owed.** A search only leaves a place, or a token that it has taken, for
work that starts at least as far. -/
theorem step_owes (h : s.InReach)
    (howes : s.control.Owes c ∨ (⟨g, s⟩ : Moment τ α σ).taken? src = some c)
    (hstep : step g src s = .next s') : s'.control.Owes c := by
  by_cases hcall : ∃ r p crumbs, s.control = .call r p crumbs
  · obtain ⟨r, p, crumbs, hcontrol⟩ := hcall
    simp only [step, hcontrol] at hstep
    rw [hcontrol] at howes
    obtain ⟨info, form, hnode, ⟨hheld, rfl⟩ | ⟨hfresh, rfl⟩⟩ := call_next hstep
    · rw [Moment.taken?_held hcontrol hnode hheld] at howes
      exact howes.resolve_right (Option.some_ne_none c).symm
    · rw [Moment.taken?_fresh hcontrol hnode hfresh] at howes
      exact useForm_owes howes
  · rw [Moment.taken?_eq_none hcall] at howes
    have howes := howes.resolve_right (Option.some_ne_none c).symm
    obtain ⟨control, frames, demand, trace⟩ := s
    cases control with
    | call r p crumbs => exact absurd ⟨r, p, crumbs, rfl⟩ hcall
    | follow cell place crumbs =>
        simp only [step, follow] at hstep
        split at hstep <;> cases hstep
        exact howes
    | «continue» chain place =>
        simp only [step, advance] at hstep
        split at hstep
        · split at hstep <;> cases hstep
          exact howes
        · cases hstep
          exact howes
    | force tail => exact howes.elim
    | walk w =>
        obtain ⟨depth, place, stack, hstack, hle⟩ := howes
        cases hstep
        simp only [walk, hstack]
        exact hle
    | give o tail =>
        cases frames with
        | nil => cases hstep
        | cons frame frames => exact deliver_owes h.control.1 howes hstep
    | finish => exact howes.elim
    | fail f => cases hstep

end Machine

/-! ### Whole searches -/

theorem mem_taken_cons {m : Moment τ α σ} {visited : List (Moment τ α σ)} :
    n ∈ taken src (m :: visited) ↔ m.taken? src = some n ∨ n ∈ taken src visited := by
  simp [taken]

namespace Unfolds

variable {gs : List (Grammar τ α σ)} {visited : List (Moment τ α σ)} {seen : List (Sighting τ α)}
  {ended : Bool}

/-- **What is owed comes out.** -/
theorem pays (h : Unfolds src gs s visited seen ended t) (hs : s.InReach)
    (howes : s.control.Owes c) : ∃ x ∈ seen, c ≤ x.outcome.place.consumed := by
  induction h with
  | next hstep _ ih => exact ih (hs.next hstep) (Machine.step_owes hs (Or.inl howes) hstep)
  | more hstep | given hstep =>
      obtain ⟨-, hcontrol, -⟩ := Machine.step_stream hstep
      rw [hcontrol] at howes
      exact ⟨_, List.mem_cons_self .., howes⟩
  | waited hstep _ ih =>
      obtain ⟨rfl, -⟩ := Machine.step_waiting hstep
      exact ih hs howes
  | ended hstep =>
      obtain ⟨-, hcontrol, -⟩ := Machine.step_nothing hstep
      rw [hcontrol] at howes
      exact howes.elim

/-- **Every token that is taken comes out**, on whatever branch of the search it was taken:
some outcome is at least as far. -/
theorem surfaces (h : Unfolds src gs s visited seen ended t) (hs : s.InReach)
    (hn : n ∈ taken src visited) : ∃ x ∈ seen, n ≤ x.outcome.place.consumed := by
  induction h with
  | next hstep later ih =>
      -- a token that is taken now is owed by the next state; any other is taken later
      rcases mem_taken_cons.1 hn with hnow | hlater
      · exact later.pays (hs.next hstep) (Machine.step_owes hs (Or.inr hnow) hstep)
      · exact ih (hs.next hstep) hlater
  | more hstep _ ih =>
      rw [mem_taken_cons, Moment.taken?_stream hstep] at hn
      obtain ⟨x, hx, hle⟩ := ih (hs.stream hstep).2 (hn.resolve_left (Option.some_ne_none n).symm)
      exact ⟨x, List.mem_cons_of_mem _ hx, hle⟩
  | waited hstep _ ih =>
      obtain ⟨rfl, -⟩ := Machine.step_waiting hstep
      exact ih hs hn
  | given hstep =>
      rw [mem_taken_cons, Moment.taken?_stream hstep] at hn
      exact absurd (hn.resolve_left (Option.some_ne_none n).symm) (List.not_mem_nil)
  | ended hstep =>
      rw [mem_taken_cons, Moment.taken?_nothing hstep] at hn
      exact absurd (hn.resolve_left (Option.some_ne_none n).symm) (List.not_mem_nil)

/-- **The requests of a search are one for each token that it takes**, and those made before. -/
theorem lt_demand_iff (h : Unfolds src gs s visited seen ended t) (hs : s.InReach) :
    n < t.demand ↔ n < s.demand ∨ n ∈ taken src visited := by
  induction h with
  | next hstep _ ih =>
      rw [ih (hs.next hstep), Machine.step_demand hs hstep, mem_taken_cons, or_assoc]
  | more hstep _ ih =>
      rw [ih (hs.stream hstep).2, mem_taken_cons, Moment.taken?_stream hstep]
      obtain ⟨rfl, -⟩ := Machine.step_stream hstep
      simp [State.goTo]
  | waited hstep _ ih =>
      obtain ⟨rfl, -⟩ := Machine.step_waiting hstep
      exact ih hs
  | given hstep =>
      rw [mem_taken_cons, Moment.taken?_stream hstep]
      obtain ⟨rfl, -⟩ := Machine.step_stream hstep
      simp [taken]
  | ended hstep =>
      rw [mem_taken_cons, Moment.taken?_nothing hstep]
      obtain ⟨rfl, -⟩ := Machine.step_nothing hstep
      simp [taken]

theorem demand_le (h : Unfolds src gs s visited seen ended t) (hs : s.InReach) :
    s.demand ≤ t.demand := by
  refine Nat.le_of_not_lt fun hlt => ?_
  exact Nat.lt_irrefl _ ((h.lt_demand_iff hs).2 (Or.inl hlt))

/-- No outcome is further than the source has been asked. -/
theorem seen_inReach (h : Unfolds src gs s visited seen ended t) (hs : s.InReach) :
    ∀ x ∈ seen, x.outcome.InReach t.demand := by
  induction h with
  | next hstep _ ih => exact ih (hs.next hstep)
  | more hstep later ih =>
      obtain ⟨ho, hreach⟩ := hs.stream hstep
      have hle := later.demand_le hreach
      exact List.forall_mem_cons.2 ⟨⟨ho.place.mono hle, ho.error⟩, ih hreach⟩
  | waited hstep _ ih =>
      obtain ⟨rfl, -⟩ := Machine.step_waiting hstep
      exact ih hs
  | given hstep => exact List.forall_mem_cons.2 ⟨(hs.stream hstep).1, nofun⟩
  | ended => exact nofun

end Unfolds

end LazyGrammar

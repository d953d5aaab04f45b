import LazyGrammar.Proofs.Search.Account
import LazyGrammar.Proofs.Search.Verdict

/-!
# LazyGrammar.Proofs.Search.Evaluation

**What a choice and a sequence evaluate**, as far as somebody looks at their streams. A choice
evaluates its alternatives in order, and none after the one that gives the last outcome that was
looked at (`Unfolds.alternatives`). A sequence evaluates a member only where the one before it
has succeeded (`Unfolds.members`).

Design points:

* The calls of alternatives and of members are told from all other calls by their trail: it is
  the one with which the form of the choice or of the sequence is matched, and whatever they
  lead to has a longer one (`Scope.deeper`).
* A search does not look at the frames below those that it has pushed (`Machine.step_over`). So
  the search of an alternative or of a member goes as it would on its own, and gives what the
  rule gives.
* How far a choice or a sequence has got shows in its last frame: `Choosing` and `Resting` list
  the states that there are.
-/

namespace LazyGrammar

variable {τ α σ : Type} {g : Grammar τ α σ} {src : Source τ} {s s' u t : State τ α}
  {o : Outcome τ α} {tail outer : Tail τ α} {r : Rule} {rules : List Rule} {p q : Place}
  {C crumbs : Crumbs} {visited : List (Moment τ α σ)} {seen : List (Sighting τ α)} {ended : Bool}

/-! ### Frames below a search -/

/-- A search with one more frame below all others. -/
def State.over (s : State τ α) (frame : Frame τ α) : State τ α :=
  { s with frames := s.frames ++ [frame] }

/-- What comes of a step, with one more frame below all others. -/
def Progress.over (frame : Frame τ α) : Progress τ α → Progress τ α
  | .next s => .next (s.over frame)
  | .stream o tail s => .stream o tail (s.over frame)
  | .nothing s => .nothing (s.over frame)
  | .waiting cell s => .waiting cell (s.over frame)
  | .fault f => .fault f
  | .circular => .circular

namespace Machine

variable (frame : Frame τ α)

theorem tryLater_over (later : Later) (s : State τ α) :
    tryLater later (s.over frame) = (tryLater later s).over frame := by
  unfold tryLater
  split <;> rfl

theorem useForm_over (src : Source τ) (info : RuleInfo) (p : Place) (crumbs : Crumbs)
    (s : State τ α) (form : Form τ α) :
    useForm src info p crumbs (s.over frame) form
      = (useForm src info p crumbs s form).over frame := by
  cases form with
  | terminal accept =>
      simp only [useForm, takeToken]
      split
      · rfl
      · split <;> rfl
  | endOfInput value =>
      simp only [useForm, takeEnd]
      split <;> rfl
  | oneOf first others => exact tryLater_over frame _ s
  | _ => rfl

theorem deliver_over (o : Outcome τ α) (tail : Tail τ α) (s : State τ α) (top : Frame τ α) :
    deliver o tail (s.over frame) top = (deliver o tail s top).over frame := by
  cases top with
  | map f =>
      simp only [deliver]
      split
      · rfl
      · split <;> rfl
  | orElse later => rfl
  | chainOuter chain =>
      simp only [deliver]
      split <;> rfl
  | chainInner outer chain => rfl
  | item w depth start =>
      simp only [deliver, takeItem]
      split
      · rfl
      · split <;> rfl

/-- **A search does not look at the frames below it**, until it gives an outcome or ends. -/
theorem step_over (g : Grammar τ α σ) (src : Source τ) (s : State τ α) (frame : Frame τ α)
    (hgive : s.frames = [] → (∀ o tail, s.control ≠ .give o tail) ∧ s.control ≠ .finish) :
    step g src (s.over frame) = (step g src s).over frame := by
  obtain ⟨control, frames, demand, trace⟩ := s
  cases control with
  | call rule place crumbs =>
      simp only [step, call, State.over]
      split
      · rfl
      · split
        · rfl
        · exact congrArg Progress.next (useForm_over frame src _ place _
            ⟨.call rule place crumbs, frames, demand, _⟩ _)
  | follow cell place crumbs =>
      simp only [step, follow, State.over]
      split <;> rfl
  | «continue» chain place =>
      simp only [step, advance, State.over]
      split
      · split <;> rfl
      · rfl
  | force tail => cases tail <;> rfl
  | walk w =>
      simp only [step, walk, State.over]
      split <;> rfl
  | give o tail =>
      cases frames with
      | nil => exact absurd rfl ((hgive rfl).1 o tail)
      | cons top frames =>
          exact deliver_over frame o tail ⟨.give o tail, frames, demand, trace⟩ top
  | finish =>
      cases frames with
      | nil => exact absurd rfl (hgive rfl).2
      | cons top frames =>
          cases top with
          | orElse later =>
              exact congrArg Progress.next
                (tryLater_over frame later ⟨.finish, frames, demand, trace⟩)
          | _ => rfl
  | fail f => rfl

/-- What comes of a step over a frame: a step of the search, or the frame takes what the search
gives, or it is told that there is nothing more. -/
theorem step_over_next {frame : Frame τ α} (hstep : step g src (s.over frame) = .next s') :
    (∃ u, step g src s = .next u ∧ s' = u.over frame) ∨
    (∃ o tail, s.control = .give o tail ∧ s.frames = [] ∧
      deliver o tail { s with frames := [] } frame = .next s') ∨
    (s.control = .finish ∧ s.frames = [] ∧ s' = finish { s with frames := [] } frame) := by
  by_cases hbusy : s.frames = [] → (∀ o tail, s.control ≠ .give o tail) ∧ s.control ≠ .finish
  · rw [step_over g src s frame hbusy] at hstep
    cases hu : step g src s with
    | next u =>
        rw [hu] at hstep
        cases hstep
        exact Or.inl ⟨u, rfl, rfl⟩
    | _ =>
        rw [hu] at hstep
        cases hstep
  · obtain ⟨control, frames, demand, trace⟩ := s
    rw [Classical.not_imp] at hbusy
    obtain ⟨rfl, hcontrol⟩ := hbusy
    cases control with
    | give o tail => exact Or.inr (Or.inl ⟨o, tail, rfl, rfl, hstep⟩)
    | finish =>
        cases hstep
        exact Or.inr (Or.inr ⟨rfl, rfl, rfl⟩)
    | _ => exact absurd ⟨nofun, nofun⟩ hcontrol

/-- Nothing comes out of a search over a frame. -/
theorem step_over_stream {frame : Frame τ α}
    (hstep : step g src (s.over frame) = .stream o tail s') : False := by
  have hframes := (step_stream hstep).2.2
  simp [State.over] at hframes

end Machine

/-! ### The search of a rule -/

/-- Trails that are longer than a given one. -/
def Scope.deeper (C : Crumbs) : Scope := ⟨fun _ => True, fun _ => True, fun _ crumbs =>
  C.entries.length < crumbs.entries.length⟩

theorem Scope.deeper_kept (C : Crumbs) (g : Grammar τ α σ) (src : Source τ) :
    (Scope.deeper C).Kept g src where
  part _ _ _ := trivial
  reference _ _ := trivial
  target _ _ := trivial
  enter _ _ hsite _ := Nat.lt_succ_of_lt hsite
  leads hsite _ := hsite

/-- A state in the search of a rule that was called with a trail: whatever is still to be called
has a longer one, and what comes out is what the rule gives. -/
structure State.Serves (g : Grammar τ α σ) (src : Source τ) (C : Crumbs) (r : Rule) (p : Place)
    (s : State τ α) : Prop where
  within : s.Within (Scope.deeper C) src p
  honours : s.Honours g src (Gives g src (.use r) p C)

/-- A tail that is left of such a search. -/
structure Tail.Serves (g : Grammar τ α σ) (src : Source τ) (C : Crumbs) (r : Rule) (p : Place)
    (tail : Tail τ α) : Prop where
  within : tail.Within (Scope.deeper C) src p
  honours : tail.Honours g src (Gives g src (.use r) p C)

/-- No call of such a search has the trail itself. -/
theorem State.Within.ne_of_call (h : s.Within (Scope.deeper C) src p)
    (hcontrol : s.control = .call r q crumbs) : crumbs ≠ C := by
  rintro rfl
  obtain ⟨_, hcall, -⟩ := h
  rw [hcontrol] at hcall
  exact Nat.lt_irrefl _ hcall.2.2

namespace State.Serves

theorem of_call (hcontrol : s.control = .call r p C) (hframes : s.frames = [])
    (hstep : Machine.step g src s = .next s') : s'.Serves g src C r p := by
  obtain ⟨control, frames, demand, trace⟩ := s
  cases hcontrol
  cases hframes
  have hhonours : (⟨.call r p C, [], demand, trace⟩ : State τ α).Honours g src
      (Gives g src (.use r) p C) := ⟨fun _ ho => ho, trivial⟩
  have hhonours' := Machine.step_honours hhonours
  rw [hstep] at hhonours'
  refine ⟨?_, hhonours'⟩
  obtain ⟨info, form, hnode, ⟨-, rfl⟩ | ⟨-, rfl⟩⟩ := Machine.call_next hstep
  · exact State.within_single .refl (Outcome.fits_circle .refl info)
  · exact Machine.useForm_within (Scope.deeper_kept C g src) trivial hnode
      (Nat.lt_succ_self _) .refl

theorem next (h : s.Serves g src C r p) (hstep : Machine.step g src s = .next s') :
    s'.Serves g src C r p := by
  have hwithin := Machine.step_within (Scope.deeper_kept C g src) h.within
  have hhonours := Machine.step_honours h.honours
  rw [hstep] at hwithin hhonours
  exact ⟨hwithin, hhonours⟩

/-- What comes out of the search of a rule is given by the rule, and so is what is left. -/
theorem give (h : s.Serves g src C r p) (hcontrol : s.control = .give o tail)
    (hframes : s.frames = []) :
    Gives g src (.use r) p C o.plain ∧ tail.Serves g src C r p := by
  obtain ⟨⟨q, hwithin, hway⟩, hhonours, -⟩ := h
  rw [hframes] at hway hhonours
  rw [hcontrol] at hwithin hhonours
  exact ⟨hhonours.1, hwithin.2.of_leads hway, hhonours.2⟩

end State.Serves

theorem Tail.Serves.force (h : tail.Serves g src C r p) (demand : Nat) (trace : Trace) :
    (⟨.force tail, [], demand, trace⟩ : State τ α).Serves g src C r p :=
  ⟨⟨p, h.within, .refl⟩, h.honours, trivial⟩

/-! ### Calls with a trail -/

theorem Crumbs.ne_enter (crumbs : Crumbs) (id : RuleId) (c : Nat) :
    crumbs ≠ crumbs.enter id c := fun h => by
  have hlength := congrArg (List.length ∘ Crumbs.entries) h
  exact Nat.ne_of_lt (Nat.lt_succ_self _) hlength

/-- What a state calls with a trail, and where. -/
def State.callsWith (C : Crumbs) (s : State τ α) : List (Rule × Place) :=
  match s.control with
  | .call r p crumbs => if crumbs = C then [(r, p)] else []
  | _ => []

/-- What a search calls with a trail, in order. -/
def callsWith (C : Crumbs) (visited : List (Moment τ α σ)) : List (Rule × Place) :=
  visited.flatMap (·.state.callsWith C)

theorem State.callsWith_call (hcontrol : s.control = .call r p C) :
    s.callsWith C = [(r, p)] := by
  rw [callsWith, hcontrol]
  exact if_pos rfl

theorem State.callsWith_eq_nil (h : ∀ r p, s.control ≠ .call r p C) : s.callsWith C = [] := by
  unfold callsWith
  split
  · next r p crumbs hcontrol =>
    refine if_neg ?_
    rintro rfl
    exact h r p hcontrol
  · rfl

theorem State.Within.callsWith_eq_nil (h : s.Within (Scope.deeper C) src p) :
    s.callsWith C = [] :=
  State.callsWith_eq_nil fun _ _ hcontrol => h.ne_of_call hcontrol rfl

/-! ### Choices -/

/-- The states of a choice at `p` whose form is matched with trail `C`: the current alternative
and those after it, and what of the current one has been called. -/
inductive Choosing (g : Grammar τ α σ) (src : Source τ) (C : Crumbs) (p : Place) :
    List (Rule × Place) → Rule → List Rule → State τ α → Prop
  | calling {s : State τ α} {r : Rule} {rest : List Rule} (hframes : s.frames = []) :
      Choosing g src C p [] r rest (Machine.tryLater ⟨r, rest, p, C⟩ s)
  | last {s : State τ α} {r : Rule} (hs : s.Serves g src C r p) :
      Choosing g src C p [(r, p)] r [] s
  | current {s : State τ α} {r r' : Rule} {rest : List Rule} (hs : s.Serves g src C r p) :
      Choosing g src C p [(r, p)] r (r' :: rest) (s.over (.orElse ⟨r', rest, p, C⟩))
  | given {r r' : Rule} {rest : List Rule} {o : Outcome τ α} {tail : Tail τ α} {demand : Nat}
      {trace : Trace} (ho : Gives g src (.use r) p C o.plain) (htail : tail.Serves g src C r p) :
      Choosing g src C p [(r, p)] r (r' :: rest)
        ⟨.give o (.orElse tail ⟨r', rest, p, C⟩), [], demand, trace⟩
  | forcing {r r' : Rule} {rest : List Rule} {tail : Tail τ α} {demand : Nat} {trace : Trace}
      (htail : tail.Serves g src C r p) :
      Choosing g src C p [(r, p)] r (r' :: rest)
        ⟨.force (.orElse tail ⟨r', rest, p, C⟩), [], demand, trace⟩

namespace Choosing

variable {called : List (Rule × Place)} {rest : List Rule}

/-- A choice goes on with its current alternative, or with the next one if the current one has
nothing more. -/
theorem next (h : Choosing g src C p called r rest s) (hstep : Machine.step g src s = .next s') :
    Choosing g src C p (called ++ s.callsWith C) r rest s' ∨
      ∃ r' rest', rest = r' :: rest' ∧ called ++ s.callsWith C = [(r, p)] ∧
        Choosing g src C p [] r' rest' s' := by
  cases h with
  | @calling s r rest hframes =>
      obtain ⟨control, frames, demand, trace⟩ := s
      cases hframes
      cases rest with
      | nil =>
          rw [State.callsWith_call rfl]
          exact Or.inl (.last (.of_call rfl rfl hstep))
      | cons r' rest =>
          rw [State.callsWith_call rfl]
          change Machine.step g src ((⟨.call r p C, [], demand, trace⟩ : State τ α).over
            (.orElse ⟨r', rest, p, C⟩)) = .next s' at hstep
          rcases Machine.step_over_next hstep with ⟨u, hu, rfl⟩ | ⟨_, _, hcontrol, -⟩ |
            ⟨hcontrol, -⟩
          · exact Or.inl (.current (.of_call rfl rfl hu))
          · cases hcontrol
          · cases hcontrol
  | last hs =>
      rw [hs.within.callsWith_eq_nil]
      exact Or.inl (.last (hs.next hstep))
  | @current u r r' rest hs =>
      have hquiet : (u.over (.orElse ⟨r', rest, p, C⟩)).callsWith C = [] :=
        hs.within.callsWith_eq_nil
      rw [hquiet]
      rcases Machine.step_over_next hstep with ⟨u', hu, rfl⟩ |
        ⟨o, tail, hcontrol, hframes, hdeliver⟩ | ⟨-, -, rfl⟩
      · exact Or.inl (.current (hs.next hu))
      · obtain ⟨ho, htail⟩ := hs.give hcontrol hframes
        cases hdeliver
        exact Or.inl (.given ho htail)
      · exact Or.inr ⟨r', rest, rfl, rfl, .calling rfl⟩
  | given => cases hstep
  | @forcing r r' rest tail demand trace htail =>
      cases hstep
      exact Or.inl (.current (htail.force demand trace))

/-- What comes out of a choice is given by the current alternative. -/
theorem stream (h : Choosing g src C p called r rest s)
    (hstep : Machine.step g src s = .stream o tail s') :
    called ++ s.callsWith C = [(r, p)] ∧ Gives g src (.use r) p C o.plain ∧
      Choosing g src C p [(r, p)] r rest (s'.goTo (.force tail)) := by
  obtain ⟨rfl, hcontrol, hframes⟩ := Machine.step_stream hstep
  have hquiet : s'.callsWith C = [] := State.callsWith_eq_nil fun _ _ hcall => by
    cases hcall.symm.trans hcontrol
  rw [hquiet]
  cases h with
  | @calling s r rest =>
      cases rest <;> cases hcontrol
  | last hs =>
      obtain ⟨ho, htail⟩ := hs.give hcontrol hframes
      obtain ⟨control, frames, demand, trace⟩ := s'
      cases hframes
      exact ⟨rfl, ho, .last (htail.force demand trace)⟩
  | current => exact (Machine.step_over_stream hstep).elim
  | given ho htail =>
      cases hcontrol
      exact ⟨rfl, ho, .forcing htail⟩
  | forcing => cases hcontrol

end Choosing

/-- A choice has called some alternatives, in order, and what came out last is given by the last
of them. -/
theorem Unfolds.choosing {called : List (Rule × Place)} {rest : List Rule}
    (h : Unfolds src [g] s visited seen ended t) (hended : ended = false)
    (hs : Choosing g src C p called r rest s) :
    ∃ done r' rest', r :: rest = done ++ r' :: rest' ∧
      called ++ callsWith C visited = (done ++ [r']).map (·, p) ∧
      ∀ x, seen.getLast? = some x → Gives g src (.use r') p C x.outcome.plain := by
  induction h using Unfolds.alone_induction generalizing called r rest with
  | next hstep _ ih =>
      rw [callsWith, List.flatMap_cons, ← List.append_assoc]
      rcases hs.next hstep with hs' | ⟨r', rest', rfl, hcalled, hs'⟩
      · exact ih hended hs'
      · -- the alternative before has been called and is done
        obtain ⟨done, r₁, rest₁, heq, hcalls, hlast⟩ := ih hended hs'
        refine ⟨r :: done, r₁, rest₁, congrArg (r :: ·) heq, ?_, hlast⟩
        rw [List.nil_append] at hcalls
        rw [hcalled, ← callsWith, hcalls]
        rfl
  | more hstep later ih =>
      obtain ⟨hcalled, -, hs'⟩ := hs.stream hstep
      rw [callsWith, List.flatMap_cons, ← List.append_assoc, hcalled]
      obtain ⟨done, r₁, rest₁, heq, hcalls, hlast⟩ := ih hended hs'
      refine ⟨done, r₁, rest₁, heq, hcalls, fun x hx => hlast x ?_⟩
      obtain ⟨y, seen, rfl⟩ := List.exists_cons_of_ne_nil (later.seen_ne_nil hended)
      rwa [List.getLast?_cons_cons] at hx
  | given hstep =>
      obtain ⟨hcalled, ho, -⟩ := hs.stream hstep
      refine ⟨[], r, rest, rfl, ?_, fun x hx => ?_⟩
      · rw [callsWith, List.flatMap_singleton, hcalled]
        rfl
      · cases hx
        exact ho
  | ended => cases hended

/-- **A choice evaluates no alternative after the one that gives the last outcome that was
looked at.** It has called the alternatives up to this one, each once and in order. -/
theorem Unfolds.alternatives {info : RuleInfo} {first : Rule} {others : List Rule} {demand : Nat}
    {trace : Trace} {x : Sighting τ α} (hnode : g.node? r = some ⟨info, .oneOf first others⟩)
    (hfresh : crumbs.holds info.id p.consumed = false)
    (h : Unfolds src [g] ⟨.call r p crumbs, [], demand, trace⟩ visited (seen ++ [x]) false t) :
    ∃ done r' rest, first :: others = done ++ r' :: rest ∧
      callsWith (crumbs.enter info.id p.consumed) visited = (done ++ [r']).map (·, p) ∧
      Gives g src (.use r') p (crumbs.enter info.id p.consumed) x.outcome.plain := by
  obtain ⟨s', visited, rfl, hcall, later⟩ := h.of_call
  obtain ⟨info', form, hnode', hcases⟩ := Machine.call_next hcall
  cases hnode.symm.trans hnode'
  rcases hcases with ⟨hheld, -⟩ | ⟨-, rfl⟩
  · cases hheld.symm.trans hfresh
  · obtain ⟨done, r', rest, heq, hcalls, hlast⟩ := later.choosing rfl (.calling rfl)
    refine ⟨done, r', rest, heq, ?_, hlast x List.getLast?_concat⟩
    have hother : State.callsWith (crumbs.enter info.id p.consumed)
        (⟨.call r p crumbs, [], demand, trace⟩ : State τ α) = [] :=
      if_neg (Crumbs.ne_enter crumbs info.id p.consumed)
    rw [callsWith, List.flatMap_cons, hother]
    exact hcalls

/-! ### Sequences -/

/-- The states of the rest of a sequence whose form is matched with trail `C`: the members that
are left, the current one first. It has started at a place that the condition `A` holds of, and
members that something came out of have been called. -/
inductive Resting (g : Grammar τ α σ) (src : Source τ) (C : Crumbs)
    (called : List (Rule × Place)) : (Place → Prop) → List Rule → State τ α → Prop
  | start {A : Place → Prop} (chain : Chain α) {p : Place} {demand : Nat} {trace : Trace}
      (hchain : chain.crumbs = C) (hp : A p) :
      Resting g src C called A chain.rules ⟨.continue chain p, [], demand, trace⟩
  | calling {A : Place → Prop} {r : Rule} {chain : Chain α} {p : Place} {demand : Nat}
      {trace : Trace} (hchain : chain.crumbs = C) (hp : A p) :
      Resting g src C called A (r :: chain.rules)
        ⟨.call r p C, [.chainOuter chain], demand, trace⟩
  | current {A : Place → Prop} {r : Rule} {chain : Chain α} {p : Place} {s : State τ α}
      (hchain : chain.crumbs = C) (hcalled : (r, p) ∈ called) (hs : s.Serves g src C r p) :
      Resting g src C called A (r :: chain.rules) (s.over (.chainOuter chain))
  | onward {A : Place → Prop} {r : Rule} {chain : Chain α} {p : Place} {outer : Tail τ α}
      {s : State τ α} (hchain : chain.crumbs = C) (hcalled : (r, p) ∈ called)
      (houter : outer.Serves g src C r p)
      (hs : Resting g src C called (fun q => Gives g src (.use r) p C (.success q ()))
        chain.rules s) :
      Resting g src C called A (r :: chain.rules) (s.over (.chainInner outer chain))
  | given {A : Place → Prop} {r : Rule} {chain : Chain α} {p : Place} {o : Outcome τ α}
      {inner outer : Tail τ α} {demand : Nat} {trace : Trace} (hchain : chain.crumbs = C)
      (hcalled : (r, p) ∈ called) (houter : outer.Serves g src C r p)
      (hinner : ∀ demand trace, Resting g src C called
        (fun q => Gives g src (.use r) p C (.success q ())) chain.rules
        ⟨.force inner, [], demand, trace⟩) :
      Resting g src C called A (r :: chain.rules)
        ⟨.give o (.chained inner outer chain), [], demand, trace⟩
  | forcing {A : Place → Prop} {r : Rule} {chain : Chain α} {p : Place} {inner outer : Tail τ α}
      {demand : Nat} {trace : Trace} (hchain : chain.crumbs = C) (hcalled : (r, p) ∈ called)
      (houter : outer.Serves g src C r p)
      (hinner : ∀ demand trace, Resting g src C called
        (fun q => Gives g src (.use r) p C (.success q ())) chain.rules
        ⟨.force inner, [], demand, trace⟩) :
      Resting g src C called A (r :: chain.rules)
        ⟨.force (.chained inner outer chain), [], demand, trace⟩
  | idle {A : Place → Prop} {rules : List Rule} {p : Place} {s : State τ α}
      (hs : s.Within (Scope.deeper C) src p) : Resting g src C called A rules s

namespace Resting

variable {A : Place → Prop} {called called' : List (Rule × Place)}

theorem mono (h : Resting g src C called A rules s) (hsubset : called ⊆ called') :
    Resting g src C called' A rules s := by
  induction h with
  | start chain hchain hp => exact .start chain hchain hp
  | calling hchain hp => exact .calling hchain hp
  | current hchain hcalled hs => exact .current hchain (hsubset hcalled) hs
  | onward hchain hcalled houter _ ih => exact .onward hchain (hsubset hcalled) houter ih
  | given hchain hcalled houter _ ih => exact .given hchain (hsubset hcalled) houter ih
  | forcing hchain hcalled houter _ ih => exact .forcing hchain (hsubset hcalled) houter ih
  | idle hs => exact .idle hs

/-- What is left after an outcome of the rest of a sequence. -/
theorem more (h : Resting g src C called A rules s) (hcontrol : s.control = .give o tail)
    (hframes : s.frames = []) (demand : Nat) (trace : Trace) :
    Resting g src C called A rules ⟨.force tail, [], demand, trace⟩ := by
  cases h with
  | start => cases hcontrol
  | calling => cases hcontrol
  | current => simp [State.over] at hframes
  | onward => simp [State.over] at hframes
  | given hchain hcalled houter hinner =>
      cases hcontrol
      exact .forcing hchain hcalled houter hinner
  | forcing => cases hcontrol
  | idle hs =>
      obtain ⟨q, hgive, hway⟩ := hs
      rw [hframes] at hway
      rw [hcontrol] at hgive
      exact .idle ⟨q, hgive.2, hway⟩

/-- The rest of a sequence stays one, and a call that it makes has been made. -/
theorem next (h : Resting g src C called A rules s) (hstep : Machine.step g src s = .next s') :
    Resting g src C (called ++ s.callsWith C) A rules s' := by
  have hleft : called ⊆ called ++ s.callsWith C := List.subset_append_left ..
  generalize hcalls : s.callsWith C = calls at hleft ⊢
  induction h generalizing s' calls with
  | @start A chain p demand trace hchain hp =>
      subst hchain
      simp only [Machine.step, Machine.advance] at hstep
      split at hstep
      · split at hstep <;> cases hstep
        exact .idle (p := p) (State.within_single .refl (Outcome.fits_success .refl _))
      · next r rules hrules =>
        cases hstep
        have hchain : ({ chain with rules } : Chain α).crumbs = chain.crumbs := rfl
        rw [hrules]
        exact .calling hchain hp
  | @calling A r chain p demand trace hchain hp =>
      rw [State.callsWith_call rfl] at hcalls
      have hcalled : (r, p) ∈ called ++ calls :=
        hcalls ▸ List.mem_append_right called (List.mem_singleton_self (r, p))
      change Machine.step g src ((⟨.call r p C, [], demand, trace⟩ : State τ α).over
        (.chainOuter chain)) = .next s' at hstep
      rcases Machine.step_over_next hstep with ⟨u, hu, rfl⟩ | ⟨_, _, hcontrol, -⟩ | ⟨hcontrol, -⟩
      · exact .current hchain hcalled (.of_call rfl rfl hu)
      · cases hcontrol
      · cases hcontrol
  | @current A r chain p u hchain hcalled hs =>
      rcases Machine.step_over_next hstep with ⟨u', hu, rfl⟩ |
        ⟨o, tail, hcontrol, hframes, hdeliver⟩ | ⟨-, -, rfl⟩
      · exact .current hchain (hleft hcalled) (hs.next hu)
      · obtain ⟨ho, htail⟩ := hs.give hcontrol hframes
        simp only [Machine.deliver] at hdeliver
        split at hdeliver <;> cases hdeliver
        · -- after a failure no member is tried
          exact .given hchain (hleft hcalled) htail fun _ _ => .idle (p := p) ⟨p, .done, .refl⟩
        · next v hok =>
          have hplain : o.plain = .success o.place () := by
            rw [Outcome.plain, hok]
            rfl
          rw [hplain] at ho
          exact .onward hchain (hleft hcalled) htail
            (.start { chain with values := chain.values ++ [v] } hchain ho)
      · exact .idle (p := p) ⟨p, trivial, .refl⟩
  | @onward A r chain p outer u hchain hcalled houter hs ih =>
      rcases Machine.step_over_next hstep with ⟨u', hu, rfl⟩ |
        ⟨o, tail, hcontrol, hframes, hdeliver⟩ | ⟨-, -, rfl⟩
      · exact .onward hchain (hleft hcalled) houter (ih hu calls hcalls hleft)
      · cases hdeliver
        exact .given hchain (hleft hcalled) houter fun _ _ =>
          (hs.more hcontrol hframes _ _).mono hleft
      · exact .current hchain (hleft hcalled) (houter.force _ _)
  | given => cases hstep
  | forcing hchain hcalled houter hinner =>
      cases hstep
      exact .onward hchain (hleft hcalled) houter ((hinner _ _).mono hleft)
  | idle hs =>
      have hwithin := Machine.step_within (Scope.deeper_kept C g src) hs
      rw [hstep] at hwithin
      exact .idle hwithin

/-- **A member is called first, or where the one before it has been called and succeeded.** -/
theorem call (h : Resting g src C called A rules s) (hcontrol : s.control = .call r q C) :
    (rules.head? = some r ∧ A q) ∨ ∃ done before rest p, rules = done ++ before :: r :: rest ∧
      (before, p) ∈ called ∧ Gives g src (.use before) p C (.success q ()) := by
  induction h with
  | start => cases hcontrol
  | calling _ hp =>
      cases hcontrol
      exact Or.inl ⟨rfl, hp⟩
  | current _ _ hs => exact absurd rfl (hs.within.ne_of_call hcontrol)
  | @onward A r₀ chain p outer u hchain hcalled houter hs ih =>
      right
      rcases ih hcontrol with ⟨hhead, hok⟩ | ⟨done, before, rest, p', heq, hok⟩
      · obtain ⟨rest, hrules⟩ := List.head?_eq_some_iff.1 hhead
        exact ⟨[], r₀, rest, p, by rw [hrules]; rfl, hcalled, hok⟩
      · exact ⟨r₀ :: done, before, rest, p', by rw [heq]; rfl, hok⟩
  | given => cases hcontrol
  | forcing => cases hcontrol
  | idle hs => exact absurd rfl (hs.ne_of_call hcontrol)

end Resting

/-- Whatever moment of the search of a sequence is looked at, the members that something has
come out of were called before it. -/
theorem Unfolds.resting {A : Place → Prop} {earlier later : List (Moment τ α σ)} {m : Moment τ α σ}
    (h : Unfolds src [g] s (earlier ++ m :: later) seen ended t) (called : List (Rule × Place))
    (hs : Resting g src C called A rules s) :
    Resting g src C (called ++ callsWith C earlier) A rules m.state := by
  induction earlier generalizing s seen called with
  | nil =>
      have hfirst : m.state = s := by
        cases h with
        | waited _ later => cases later
        | _ => rfl
      rw [hfirst]
      exact hs.mono (List.subset_append_left ..)
  | cons m₀ earlier ih =>
      rw [callsWith, List.flatMap_cons, ← List.append_assoc]
      generalize hvisited : m₀ :: earlier ++ m :: later = visited at h
      cases h with
      | next hstep h =>
          obtain ⟨rfl, rfl⟩ := List.cons.inj hvisited
          exact ih h _ (hs.next hstep)
      | more hstep h =>
          obtain ⟨rfl, rfl⟩ := List.cons.inj hvisited
          obtain ⟨rfl, hcontrol, hframes⟩ := Machine.step_stream hstep
          rw [State.goTo, hframes] at h
          exact ih h _ ((hs.more hcontrol hframes _ _).mono (List.subset_append_left ..))
      | waited _ later => cases later
      | given | ended => simp at hvisited

/-- **A sequence evaluates no member after one that fails.** Wherever it calls a member other
than the first one, it has called the member before, which gives a success that ends there. -/
theorem Unfolds.members {info : RuleInfo} {c r : Rule} {first : Rule} {others : List Rule}
    {build : List α → Except Fault α} {demand : Nat} {trace : Trace}
    {earlier later : List (Moment τ α σ)} {m : Moment τ α σ}
    (hnode : g.node? c = some ⟨info, .sequence first others build⟩)
    (hfresh : crumbs.holds info.id p.consumed = false)
    (h : Unfolds src [g] ⟨.call c p crumbs, [], demand, trace⟩ (earlier ++ m :: later) seen
      ended t)
    (hcall : m.state.control = .call r q (crumbs.enter info.id p.consumed)) :
    (r = first ∧ q = p) ∨ ∃ done before rest p', first :: others = done ++ before :: r :: rest ∧
      (before, p') ∈ callsWith (crumbs.enter info.id p.consumed) earlier ∧
      Gives g src (.use before) p' (crumbs.enter info.id p.consumed) (.success q ()) := by
  obtain ⟨s', visited, heq, hstep, hunfolds⟩ := h.of_call
  obtain ⟨info', form, hnode', hcases⟩ := Machine.call_next hstep
  cases hnode.symm.trans hnode'
  rcases hcases with ⟨hheld, -⟩ | ⟨-, rfl⟩
  · cases hheld.symm.trans hfresh
  · cases earlier with
    | nil =>
        -- the sequence itself is called with a shorter trail
        cases heq
        exact absurd (Control.call.inj hcall).2.2 (Crumbs.ne_enter _ _ _)
    | cons m₀ earlier =>
        obtain ⟨rfl, rfl⟩ := List.cons.inj heq
        have hresting := hunfolds.resting (A := (· = p)) [] (.calling rfl rfl)
        rcases hresting.call hcall with ⟨hhead, rfl⟩ |
          ⟨done, before, rest, p', hrules, hcalled, hgives⟩
        · cases hhead
          exact Or.inl ⟨rfl, rfl⟩
        · refine Or.inr ⟨done, before, rest, p', hrules, ?_, hgives⟩
          rw [callsWith, List.flatMap_cons]
          exact List.mem_append_right _ hcalled

end LazyGrammar

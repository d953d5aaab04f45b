import LazyGrammar.Proofs.Search.Termination
import LazyGrammar.Proofs.Search.Unfolding

/-!
# LazyGrammar.Proofs.Search.TrailOrder

**Trails are in order, so looking an entry up is exact.** In a search that begins with an empty
trail, positions never decrease along the trail of a call, no entry is on it twice, and its depth
is the number of its entries. The lookup, which gives up at the first smaller position, therefore
finds an entry if it is anywhere on the trail.

Nothing checks the order. It holds because every call is made ahead of the place where its trail
was extended last, also when the call is made out of a tail that was put off: trails are captured
in tails together with a bound for the places to come (`Tail.Within`), and outcomes consume no
less than nothing.

Design points:

* `Machine.ComesTo` is any use of a search: the tail of every stream may be forced at any time,
  any number of times, and every step may be taken in another grammar.
* What is known of a site is the invariant of `Scope`; a rule is entered only where the trail
  does not have it, so entering keeps entries different (`Crumbs.Trodden.enter`).
-/

namespace LazyGrammar

variable {τ α σ : Type} {src : Source τ} {start s : State τ α} {c : Nat} {p : Place}
  {crumbs : Crumbs}

/-! ### Searches that are left and taken up again -/

/-- The states that a search comes to. A tail that it has given may be forced at any later time,
whatever has been recorded and asked for meanwhile. -/
inductive Machine.ComesTo (src : Source τ) (start : State τ α) : State τ α → Prop
  | start : ComesTo src start start
  | next {σ : Type} {g : Grammar τ α σ} {s s' : State τ α} (before : ComesTo src start s)
      (hstep : Machine.step g src s = .next s') : ComesTo src start s'
  | resume {σ : Type} {g : Grammar τ α σ} {s s' : State τ α} {o : Outcome τ α}
      {tail : Tail τ α} (before : ComesTo src start s)
      (hstep : Machine.step g src s = .stream o tail s') (demand : Nat) (trace : Trace) :
      ComesTo src start ⟨.force tail, [], demand, trace⟩

theorem Machine.ComesTo.trans {mid : State τ α} (h : Machine.ComesTo src start mid)
    (h' : Machine.ComesTo src mid s) : Machine.ComesTo src start s := by
  induction h' with
  | start => exact h
  | next _ hstep ih => exact .next ih hstep
  | resume _ hstep demand trace ih => exact .resume ih hstep demand trace

theorem Machine.ComesTo.of_steps {g : Grammar τ α σ} {s' : State τ α}
    (h : Machine.Steps g src s s') : Machine.ComesTo src s s' := by
  induction h with
  | refl => exact .start
  | tail _ hstep ih => exact .next ih hstep

/-- A scope that every grammar keeps to is kept to however a search is used. -/
theorem Machine.ComesTo.within {sc : Scope} {p₀ : Place}
    (hkept : ∀ {σ : Type} (g : Grammar τ α σ), sc.Kept g src)
    (h : Machine.ComesTo src start s) (hstart : start.Within sc src p₀) :
    s.Within sc src p₀ := by
  induction h with
  | start => exact hstart
  | @next σ g s s' _ hstep ih =>
    have hwithin := Machine.step_within (hkept g) ih
    rw [hstep] at hwithin
    exact hwithin
  | @resume σ g s s' o tail _ hstep demand trace ih =>
    have hwithin := Machine.step_within (hkept g) ih
    rw [hstep] at hwithin
    obtain ⟨rfl, -, hframes⟩ := Machine.step_stream hstep
    obtain ⟨-, q, htail, hleads⟩ := hwithin
    rw [State.goTo, hframes] at hleads
    exact ⟨q, htail, hleads⟩

/-- Whoever walks the stream of a search only sees states that the search comes to. -/
theorem Unfolds.comesTo {gs : List (Grammar τ α σ)} {visited : List (Moment τ α σ)}
    {seen : List (Sighting τ α)} {ended : Bool} {t : State τ α}
    (h : Unfolds src gs s visited seen ended t) : ∀ m ∈ visited, Machine.ComesTo src s m.state := by
  induction h with
  | next hstep _ ih =>
    exact List.forall_mem_cons.2 ⟨.start, fun m hm => (Machine.ComesTo.next .start hstep).trans
      (ih m hm)⟩
  | @more g gs s s' t o tail visited seen ended hstep _ ih =>
    obtain ⟨rfl, -, hframes⟩ := Machine.step_stream hstep
    have hresume := Machine.ComesTo.resume .start hstep s'.demand s'.trace
    rw [← hframes] at hresume
    exact List.forall_mem_cons.2 ⟨.start, fun m hm => hresume.trans (ih m hm)⟩
  | waited hstep _ ih =>
    obtain ⟨rfl, -⟩ := Machine.step_waiting hstep
    exact ih
  | given | ended => exact List.forall_mem_singleton.2 .start

/-! ### Order -/

/-- The scope of all rules, with trails of a search that starts with an empty one, numbered as
they are entered. -/
def Scope.numbered (src : Source τ) (c : Nat) : Scope where
  rule _ := True
  cell _ := True
  site p crumbs := crumbs.Trodden Set.univ src c p ∧ crumbs.depth = crumbs.entries.length

theorem Scope.numbered_kept (g : Grammar τ α σ) (src : Source τ) (c : Nat) :
    (Scope.numbered src c).Kept g src where
  part _ _ _ := trivial
  reference _ _ := trivial
  target _ _ := trivial
  enter := by
    intro r node p crumbs _ _ hsite hfresh
    refine ⟨hsite.1.enter (Set.mem_univ _) hfresh, ?_⟩
    rw [Crumbs.depth_enter, hsite.2, Crumbs.entries_enter, List.length_cons]
  leads hsite way := ⟨hsite.1.of_leads way, hsite.2⟩

theorem Crumbs.root_numbered (src : Source τ) (c : Nat) :
    (Scope.numbered src c).site ⟨c, 0⟩ .root :=
  ⟨.root _ src c, rfl⟩

/-- A search at a count of `c` begins with an empty trail: a rule is used, or its form is matched
without the rule on the trail. -/
inductive State.Opens (src : Source τ) (c : Nat) : State τ α → Prop
  | calling (r : Rule) (trace : Trace) : Opens src c (.calling r ⟨c, 0⟩ trace)
  | matching {σ : Type} {g : Grammar τ α σ} {r : Rule} {s : State τ α}
      (h : State.matching g src r ⟨c, 0⟩ = some s) : Opens src c s

theorem State.Opens.within (h : start.Opens src c) :
    start.Within (Scope.numbered src c) src ⟨c, 0⟩ := by
  cases h with
  | calling r trace => exact ⟨⟨c, 0⟩, ⟨.refl, trivial, Crumbs.root_numbered src c⟩, .refl⟩
  | @matching σ g r _ h =>
    obtain ⟨⟨info, form⟩, hnode, rfl⟩ := Option.map_eq_some_iff.1 h
    exact Machine.useForm_within (Scope.numbered_kept g src c) trivial hnode
      (Crumbs.root_numbered src c) .refl

/-- What holds of the trail of a call at a place, in a search that began at a count of `c`. -/
structure Crumbs.InOrder (c : Nat) (p : Place) (crumbs : Crumbs) : Prop where
  /-- Positions never decrease. -/
  order : crumbs.entries.Pairwise fun later earlier => earlier.2 ≤ later.2
  between : ∀ entry ∈ crumbs.entries, c ≤ entry.2 ∧ entry.2 ≤ p.consumed
  nodup : crumbs.entries.Nodup
  depth : crumbs.depth = crumbs.entries.length
  /-- An entry is found if it is anywhere on the trail. -/
  holds_iff (id : RuleId) (c' : Nat) :
    crumbs.holds id c' = true ↔ (id, c') ∈ crumbs.entries

theorem Crumbs.inOrder_of_numbered (h : (Scope.numbered src c).site p crumbs) :
    crumbs.InOrder c p where
  order := h.1.ascending.order
  between entry hentry := ⟨(h.1.mem entry hentry).2, h.1.ascending.le entry hentry⟩
  nodup := h.1.nodup
  depth := h.2
  holds_iff := h.1.ascending.holds_iff

theorem Machine.ComesTo.inOrder {r : Rule} (hopens : start.Opens src c)
    (h : Machine.ComesTo src start s) (hcall : s.control = .call r p crumbs) :
    crumbs.InOrder c p := by
  obtain ⟨p₀, hcontrol, -⟩ :=
    h.within (fun g => Scope.numbered_kept g src c) hopens.within
  rw [hcall] at hcontrol
  exact Crumbs.inOrder_of_numbered hcontrol.2.2

/-- **Trails are in order.** Every call of a search that begins with an empty trail has a trail on
which positions never decrease, with no entry twice and as deep as it has entries, and looking an
entry up there is exact. So it is in all states that the search comes to, whenever its tails are
forced and whatever rules there are at the time, and in all that a walk of its stream visits. -/
theorem trails_in_order (hopens : start.Opens src c) :
    (∀ (s : State τ α) (r : Rule) (p : Place) (crumbs : Crumbs), Machine.ComesTo src start s →
      s.control = .call r p crumbs → crumbs.InOrder c p) ∧
    ∀ (gs : List (Grammar τ α σ)) (visited : List (Moment τ α σ)) (seen : List (Sighting τ α))
      (ended : Bool) (t : State τ α), Unfolds src gs start visited seen ended t →
      ∀ m ∈ visited, ∀ (r : Rule) (p : Place) (crumbs : Crumbs),
        m.state.control = .call r p crumbs → crumbs.InOrder c p :=
  ⟨fun _ _ _ _ hs hcall => hs.inOrder hopens hcall,
    fun _ _ _ _ _ hunfolds m hm _ _ _ hcall => (hunfolds.comesTo m hm).inOrder hopens hcall⟩

/-- The second digit of a number is looked for out of a tail, with the trail that was captured
for the first one. -/
theorem sums_trails_in_order :
    (State.calling ⟨6⟩ ⟨3, 0⟩ .silent : State Char Nat).Opens (Source.ofList ['1', '+', '2']) 3 ∧
    ∃ s : State Char Nat,
      Machine.ComesTo (Source.ofList ['1', '+', '2']) (.calling ⟨6⟩ ⟨3, 0⟩ .silent) s ∧
      s.control = .call ⟨7⟩ ⟨4, 1⟩ ((((Crumbs.root.enter 0 3).enter 5 3).enter 2 3).enter 7 3) ∧
      ((((Crumbs.root.enter 0 3).enter 5 3).enter 2 3).enter 7 3).InOrder 3 ⟨4, 1⟩ := by
  have hopens : (State.calling ⟨6⟩ ⟨3, 0⟩ .silent : State Char Nat).Opens
      (Source.ofList ['1', '+', '2']) 3 := .calling ⟨6⟩ .silent
  have hgives : Machine.ComesTo (Source.ofList ['1', '+', '2'])
      (.calling ⟨6⟩ ⟨3, 0⟩ .silent : State Char Nat) _ :=
    .of_steps (g := Grammar.sums) (.of_run (n := 10) rfl)
  have hforced := (hgives.resume (g := Grammar.sums) rfl 1 .silent).trans
    (.of_steps (g := Grammar.sums) (.of_run (n := 3) rfl))
  exact ⟨hopens, _, hforced, rfl, (trails_in_order (σ := Unit) hopens).1 _ _ _ _ hforced rfl⟩

end LazyGrammar

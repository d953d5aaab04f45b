import LazyGrammar.Proofs.Search.Delivery
import LazyGrammar.Proofs.Search.OnDemand

/-!
# LazyGrammar.Proofs.Search.Refinement

**Walking a stream gives the meaning of its rule**: all outcomes that the recursion of
`LazyGrammar.Proofs.Search.Meaning` lists, in the same order, failures included.

The search keeps its trail as `Crumbs`, and looks for an entry only as far back as
positions can be the same. On trails whose positions never decrease this is membership
(`Crumbs.Ascending.holds_iff`), so the meaning can be given with a plain `Path`.
-/

namespace LazyGrammar

variable {τ α σ κ ρ : Type}

/-! ### Trails in order -/

/-- A trail on which positions never decrease and are at most `c`. -/
structure Crumbs.Ascending (crumbs : Crumbs) (c : Nat) : Prop where
  order : crumbs.entries.Pairwise fun later earlier => earlier.2 ≤ later.2
  le : ∀ entry ∈ crumbs.entries, entry.2 ≤ c

namespace Crumbs.Ascending

variable {crumbs : Crumbs} {c c' : Nat}

theorem root (c : Nat) : Crumbs.root.Ascending c := ⟨.nil, fun _ h => nomatch h⟩

theorem mono (h : crumbs.Ascending c) (hle : c ≤ c') : crumbs.Ascending c' :=
  ⟨h.order, fun entry hentry => (h.le entry hentry).trans hle⟩

theorem enter (h : crumbs.Ascending c) (id : RuleId) : (crumbs.enter id c).Ascending c := by
  refine ⟨List.pairwise_cons.2 ⟨h.le, h.order⟩, ?_⟩
  intro entry hentry
  rcases List.mem_cons.1 hentry with rfl | hentry
  · exact Nat.le_refl c
  · exact h.le entry hentry

/-- Looking for an entry as far as the first smaller position finds it if it is there. -/
theorem holds_iff (h : crumbs.Ascending c) (id : RuleId) (c' : Nat) :
    crumbs.holds id c' = true ↔ (id, c') ∈ crumbs.entries := by
  obtain ⟨horder, -⟩ := h
  induction crumbs with
  | root => simp [Crumbs.holds, Crumbs.entries]
  | entered rule position depth before ih =>
      obtain ⟨hlast, hbefore⟩ := List.pairwise_cons.1 horder
      simp only [Crumbs.holds, Crumbs.entries, List.mem_cons, Prod.mk.injEq]
      by_cases hlt : position < c'
      · -- the search stops here, and positions further back are no larger
        rw [if_pos hlt]
        constructor
        · exact fun hfalse => absurd hfalse Bool.false_ne_true
        · intro hmem
          rcases hmem with ⟨-, rfl⟩ | hmem
          · exact absurd hlt (Nat.lt_irrefl _)
          · exact absurd (hlast _ hmem) (Nat.not_le.2 hlt)
      · rw [if_neg hlt]
        by_cases hsame : rule = id ∧ position = c'
        · rw [if_pos hsame]
          exact iff_of_true rfl (Or.inl ⟨hsame.1.symm, hsame.2.symm⟩)
        · rw [if_neg hsame, ih hbefore]
          constructor
          · exact Or.inr
          · intro hmem
            rcases hmem with ⟨rfl, rfl⟩ | hmem
            · exact absurd ⟨rfl, rfl⟩ hsame
            · exact hmem

theorem holds_eq (h : crumbs.Ascending c) (id : RuleId) (c' : Nat) :
    Trail.holds crumbs id c' = Trail.holds crumbs.entries id c' := by
  rw [Bool.eq_iff_iff, Trail.holds_crumbs, Trail.holds_path, decide_eq_true_iff]
  exact h.holds_iff id c'

end Crumbs.Ascending

/-- A rule has the same meaning whether its trail is a record or in plain view. -/
theorem Grammar.outcomes_entries {g : Grammar τ α σ} {tokens : List τ} (r : Rule) (place : Place)
    {crumbs : Crumbs} (h : crumbs.Ascending place.consumed) :
    g.outcomes tokens r place crumbs = g.outcomes tokens r place crumbs.entries := by
  induction hheight : g.height tokens place crumbs using Nat.strongRecOn
    generalizing r place crumbs with
  | ind n ih =>
      subst hheight
      rw [g.outcomes_eq, g.outcomes_eq]
      unfold Grammar.outcomesOnce
      split
      · rfl
      · next info form hnode =>
        rw [← h.holds_eq]
        split
        · rfl
        · next hfresh =>
          rw [Bool.not_eq_true] at hfresh
          refine Form.outcomes_congr hnode (fun r' q => g.outcomes_fits r' q _) fun r' q _ way => ?_
          have hentered := (h.enter info.id).mono way.consumed_le
          exact ih _ (g.height_lt hnode hfresh way) r' q hentered rfl

/-! ### Walks -/

variable {g g₀ : Grammar τ α σ} {src : Source τ} {s s' t : State τ α}

theorem Reads.of_steps {reader : Reader τ α κ ρ} {memory : κ} {r : ρ}
    (h : Machine.Steps g src s s') (later : Reads g src reader memory s' r t) :
    Reads g src reader memory s r t := by
  induction h using Relation.ReflTransGen.head_induction_on with
  | refl => exact later
  | head hstep _ ih => exact .step hstep ih

/-- Collecting what is delivered. -/
theorem Delivers.reads {go : State τ α → State τ α} {os : List (Outcome τ α)}
    (h : Delivers g src go os) (hframes : s.frames = []) (sightings : Array (Sighting τ α)) :
    ∃ found t, Reads g src collect ⟨sightings, none⟩ (go s) found t ∧
      found.toList.map (·.outcome) = sightings.toList.map (·.outcome) ++ os := by
  induction os generalizing go s sightings with
  | nil =>
      obtain ⟨s', hsteps, hcontrol, hframes'⟩ := h s
      rw [hframes] at hframes'
      have hend : Machine.step g src s' = .nothing s' := by
        simp only [Machine.step, hcontrol, hframes']
      exact ⟨sightings, s', .of_steps hsteps (.finish hend rfl), (List.append_nil _).symm⟩
  | cons o os ih =>
      obtain ⟨tail, hcomes, hrest⟩ := h
      obtain ⟨s', hsteps, hcontrol, hframes'⟩ := hcomes s
      rw [hframes] at hframes'
      have hstream : Machine.step g src s' = .stream o tail s' := by
        simp only [Machine.step, hcontrol, hframes']
      obtain ⟨found, t, hreads, hfound⟩ :=
        ih hrest hframes' (sightings.push ⟨o, tail.isKnown⟩)
      refine ⟨found, t, .of_steps hsteps (.goOn hstream rfl hreads), ?_⟩
      rw [hfound, Array.toList_push, List.map_append, List.append_assoc]
      rfl

/-- A search from a rule that the grammar has. -/
theorem State.within_known {r : Rule} (hr : g₀.Has r) (place : Place) (crumbs : Crumbs)
    (demand : Nat) (trace : Trace) :
    (⟨.call r place crumbs, [], demand, trace⟩ : State τ α).Within (Scope.known g₀ g r) src place :=
  ⟨place, ⟨.refl, ⟨hr, .refl⟩, trivial⟩, .refl⟩

/-- Walking the stream of any call gives what the recursion says of its trail. -/
theorem settles_outcomes (tokens : List τ) {r : Rule} (hstage : g₀.Stage g) (hr : g₀.Has r)
    (hcomplete : g.Complete r) (htotal : g.Total r) (place : Place) (crumbs : Crumbs)
    (demand : Nat) (trace : Trace) :
    ∃ found t, Settles g (Source.ofList tokens) collect found t g₀ ⟨#[], none⟩
        ⟨.call r place crumbs, [], demand, trace⟩ ∧
      found.toList.map (·.outcome) = g.outcomes tokens r place crumbs := by
  have hframes : (⟨.finish, [], demand, trace⟩ : State τ α).frames = [] := rfl
  obtain ⟨found, t, hreads, hfound⟩ :=
    (delivers_call tokens hcomplete htotal place crumbs).reads hframes #[]
  have hsettles := hreads.settles hstage hcomplete
    (State.within_known hr place crumbs demand trace)
  exact ⟨found, t, hsettles, hfound⟩

/-- **Walking a stream gives exactly what the recursion lists.** The trail may be any that
comes up on a way from an empty one, and rules may still have to be made. -/
theorem walk_gives_outcomes {tokens : List τ} {r : Rule} (hstage : g₀.Stage g) (hr : g₀.Has r)
    (hcomplete : g.Complete r) (htotal : g.Total r) (c : Nat) {crumbs : Crumbs}
    (hcrumbs : crumbs.Ascending c) (demand : Nat) (trace : Trace) :
    ∃ found t, Settles g (Source.ofList tokens) collect found t g₀ ⟨#[], none⟩
        ⟨.call r ⟨c, 0⟩ crumbs, [], demand, trace⟩ ∧
      found.toList.map (·.outcome) = g.outcomes tokens r ⟨c, 0⟩ crumbs.entries := by
  rw [← Grammar.outcomes_entries r ⟨c, 0⟩ hcrumbs]
  exact settles_outcomes tokens hstage hr hcomplete htotal ⟨c, 0⟩ crumbs demand trace

/-- The sums at the start of the input, and the failures between them, for a call in the
middle of a search, with the rule for numbers made on the way. -/
theorem sums_walk_gives_outcomes :
    Grammar.sumsAtFirst.Stage Grammar.sums ∧ Grammar.sumsAtFirst.Has ⟨6⟩ ∧
    Grammar.sums.Complete ⟨6⟩ ∧ Grammar.sums.Total ⟨6⟩ ∧ (Crumbs.root.enter 9 2).Ascending 3 ∧
    ∃ (found : Array (Sighting Char Nat)) (t : State Char Nat),
      Settles Grammar.sums (Source.ofList ['1', '2', '+', '3']) collect found t
        Grammar.sumsAtFirst ⟨#[], none⟩
        ⟨.call ⟨6⟩ ⟨3, 0⟩ (Crumbs.root.enter 9 2), [], 1, .silent⟩ ∧
      found.toList.map (·.outcome)
        = Grammar.sums.outcomes ['1', '2', '+', '3'] ⟨6⟩ ⟨3, 0⟩ ([(9, 2)] : Path) ∧
      found.size = 11 := by
  have hcrumbs : (Crumbs.root.enter 9 2).Ascending 3 :=
    ((Crumbs.Ascending.root 2).enter 9).mono (by decide)
  obtain ⟨found, t, hsettles, hfound⟩ := walk_gives_outcomes Grammar.sums_stage ⟨_, rfl⟩
    Grammar.sums_complete Grammar.sums_total 3 hcrumbs 1 .silent
  refine ⟨Grammar.sums_stage, ⟨_, rfl⟩, Grammar.sums_complete, Grammar.sums_total, hcrumbs,
    found, t, hsettles, hfound, ?_⟩
  have hlength := congrArg List.length hfound
  rw [List.length_map, Array.length_toList] at hlength
  exact hlength.trans rfl

end LazyGrammar

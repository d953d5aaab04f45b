import Mathlib.Data.Set.Card.Arithmetic
import Mathlib.Order.Interval.Finset.Nat
import LazyGrammar.Proofs.Search.Refinement

/-!
# LazyGrammar.Proofs.Search.Termination

**Every search ends**, in grammars that go round in circles as well. The streams of a
complete grammar are finite and are walked to their end in finitely many steps, and a trail
that starts empty never gets longer than there are rules and positions to put on it.

The bound is an invariant of all states of a search (`Crumbs.Trodden`): a rule is entered
only where the trail does not have it, so no entry is there twice.
-/

namespace LazyGrammar

variable {τ α σ : Type}

/-! ### Trails of searches -/

/-- A trail at `p` of a search that starts with an empty one and a count of `c`, with rules
of some identities. -/
structure Crumbs.Trodden (ids : Set RuleId) (src : Source τ) (c : Nat) (p : Place)
    (crumbs : Crumbs) : Prop where
  way : src.Leads ⟨c, 0⟩ p
  ascending : crumbs.Ascending p.consumed
  nodup : crumbs.entries.Nodup
  mem : ∀ entry ∈ crumbs.entries, entry.1 ∈ ids ∧ c ≤ entry.2

namespace Crumbs.Trodden

variable {ids : Set RuleId} {src : Source τ} {c : Nat} {p q : Place} {crumbs : Crumbs}

theorem root (ids : Set RuleId) (src : Source τ) (c : Nat) :
    Crumbs.root.Trodden ids src c ⟨c, 0⟩ :=
  ⟨.refl, .root c, .nil, fun _ h => nomatch h⟩

theorem of_leads (h : crumbs.Trodden ids src c p) (way : src.Leads p q) :
    crumbs.Trodden ids src c q :=
  ⟨h.way.trans way, h.ascending.mono way.consumed_le, h.nodup, h.mem⟩

theorem enter {id : RuleId} (h : crumbs.Trodden ids src c p) (hid : id ∈ ids)
    (hfresh : crumbs.holds id p.consumed = false) :
    (crumbs.enter id p.consumed).Trodden ids src c p := by
  refine ⟨h.way, h.ascending.enter id, List.nodup_cons.2 ⟨?_, h.nodup⟩, ?_⟩
  · rw [← h.ascending.holds_iff, hfresh]
    exact Bool.false_ne_true
  · intro entry hentry
    rcases List.mem_cons.1 hentry with rfl | hentry
    · exact ⟨hid, h.way.consumed_le⟩
    · exact h.mem entry hentry

/-- No entry is there twice, and there are only so many of them. -/
theorem length_le {tokens : List τ} (hids : ids.Finite)
    (h : crumbs.Trodden ids (Source.ofList tokens) c p) :
    crumbs.entries.length ≤ ids.ncard * (tokens.length + 1) := by
  -- all entries are pairs of an identity and a position from the start up to `p`
  have hend : p.consumed ≤ c + tokens.length := by
    have hsum := h.way.consumed_add_next
    have hnext := h.way.next_le_length (Nat.zero_le _)
    simp only at hsum
    omega
  have hsub : (crumbs.entries.toFinset : Set (RuleId × Nat))
      ⊆ ids ×ˢ Set.Icc c (c + tokens.length) := by
    intro entry hentry
    have hmem : entry ∈ crumbs.entries := List.mem_toFinset.1 (Finset.mem_coe.1 hentry)
    exact ⟨(h.mem entry hmem).1, (h.mem entry hmem).2, (h.ascending.le entry hmem).trans hend⟩
  calc crumbs.entries.length
      = (crumbs.entries.toFinset : Set (RuleId × Nat)).ncard := by
        rw [Set.ncard_coe_finset, List.toFinset_card_of_nodup h.nodup]
    _ ≤ (ids ×ˢ Set.Icc c (c + tokens.length)).ncard :=
        Set.ncard_le_ncard hsub (hids.prod (Set.finite_Icc _ _))
    _ = ids.ncard * (tokens.length + 1) := by
        rw [Set.ncard_prod, ← Finset.coe_Icc, Set.ncard_coe_finset, Nat.card_Icc]
        congr 1
        omega

end Crumbs.Trodden

/-! ### States of a search -/

/-- The states that a search comes to, whoever walks its stream and whichever rules have been
made when a step is taken. -/
inductive Grammar.Visits (g : Grammar τ α σ) (src : Source τ) (start : State τ α) :
    State τ α → Prop
  | start : Visits g src start start
  | next {g₀ : Grammar τ α σ} {s s' : State τ α} (hstage : g₀.Stage g)
      (before : Visits g src start s) (hstep : Machine.step g₀ src s = .next s') :
      Visits g src start s'
  /-- The tail of a stream is walked. -/
  | resume {g₀ : Grammar τ α σ} {s s' : State τ α} {o : Outcome τ α} {tail : Tail τ α}
      (hstage : g₀.Stage g) (before : Visits g src start s)
      (hstep : Machine.step g₀ src s = .stream o tail s') :
      Visits g src start (s'.goTo (.force tail))

variable {g g₀ : Grammar τ α σ} {src : Source τ} {root : Rule} {c : Nat}

/-- A search below a rule, from an empty trail on. -/
def Scope.trodden (g : Grammar τ α σ) (src : Source τ) (root : Rule) (c : Nat) : Scope where
  rule := g.Reaches root
  cell cell := ∃ r, g.target cell = .rule r ∧ g.Reaches root r
  site := Crumbs.Trodden (g.idsBelow root) src c

/-- Every stage of a grammar that is complete below a rule keeps to what is below it. -/
theorem Scope.trodden_kept (hstage : g₀.Stage g) (hcomplete : g.Complete root) :
    (Scope.trodden g src root c).Kept g₀ src where
  part hrule hnode hpart := hrule.tail (.part (hstage.node _ _ hnode) hpart)
  reference hrule hnode := hcomplete.reference hrule (hstage.node _ _ hnode)
  target hcell htarget := by
    obtain ⟨r, hr, hreach⟩ := hcell
    cases hstage.eq_of_target hr htarget
    exact hreach
  enter hrule hnode hsite hfresh :=
    hsite.enter ⟨_, _, hrule, hstage.node _ _ hnode, rfl⟩ hfresh
  leads hsite way := hsite.of_leads way

theorem Grammar.Visits.within {trace : Trace} {s : State τ α} (hcomplete : g.Complete root)
    (h : g.Visits src (.calling root ⟨c, 0⟩ trace) s) :
    s.Within (Scope.trodden g src root c) src ⟨c, 0⟩ := by
  induction h with
  | start => exact ⟨⟨c, 0⟩, ⟨.refl, .refl, .root _ src c⟩, .refl⟩
  | next hstage _ hstep ih =>
      have hwithin := Machine.step_within (Scope.trodden_kept hstage hcomplete) ih
      rw [hstep] at hwithin
      exact hwithin
  | resume hstage _ hstep ih =>
      -- the tail of a stream stays within the scope, whenever it is walked
      have hwithin := Machine.step_within (Scope.trodden_kept hstage hcomplete) ih
      rw [hstep] at hwithin
      exact hwithin.2

/-- **Every search ends, and trails stay short.** Whatever trail a search starts with, its
stream is finite and is walked to its end in finitely many steps. If it starts with an empty
trail, no call has more entries on its trail, and none gets more by entering its rule, than
there are identities below the rule times positions in the input. -/
theorem search_ends (hcomplete : g.Complete root) (htotal : g.Total root) (tokens : List τ) :
    (∀ (g₀ : Grammar τ α σ) (place : Place) (crumbs : Crumbs) (demand : Nat) (trace : Trace),
      g₀.Stage g → g₀.Has root →
      ∃ found t, Settles g (Source.ofList tokens) collect found t g₀ ⟨#[], none⟩
        ⟨.call root place crumbs, [], demand, trace⟩) ∧
    (∀ (c : Nat) (trace : Trace) (s : State τ α) (r : Rule) (p : Place) (crumbs : Crumbs),
      g.Visits (Source.ofList tokens) (.calling root ⟨c, 0⟩ trace) s →
      s.control = .call r p crumbs →
      crumbs.entries.length ≤ (g.idsBelow root).ncard * (tokens.length + 1) ∧
      ∀ node, g.node? r = some node → crumbs.holds node.info.id p.consumed = false →
        (crumbs.enter node.info.id p.consumed).entries.length
          ≤ (g.idsBelow root).ncard * (tokens.length + 1)) := by
  constructor
  · intro g₀ place crumbs demand trace hstage hhas
    obtain ⟨found, t, hsettles, -⟩ :=
      settles_outcomes tokens hstage hhas hcomplete htotal place crumbs demand trace
    exact ⟨found, t, hsettles⟩
  · intro c trace s r p crumbs hvisits hcontrol
    obtain ⟨p₀, hwithin, -⟩ := hvisits.within hcomplete
    rw [hcontrol] at hwithin
    obtain ⟨-, hreach, htrodden⟩ := hwithin
    refine ⟨htrodden.length_le (g.finite_idsBelow root), fun node hnode hfresh => ?_⟩
    have hid : node.info.id ∈ g.idsBelow root := ⟨r, node, hreach, hnode, rfl⟩
    exact (htrodden.enter hid hfresh).length_le (g.finite_idsBelow root)

/-- A sum, with a starting trail in no order, and the first rule below the root. -/
theorem sums_search_ends :
    Grammar.sums.Complete ⟨6⟩ ∧ Grammar.sums.Total ⟨6⟩ ∧
    (∃ (found : Array (Sighting Char Nat)) (t : State Char Nat),
      Settles Grammar.sums (Source.ofList ['1', '+', '2']) collect found t Grammar.sumsAtFirst
        ⟨#[], none⟩
        ⟨.call ⟨6⟩ ⟨3, 0⟩ ((Crumbs.root.enter 0 7).enter 5 3), [], 1, .silent⟩) ∧
    ∃ s : State Char Nat,
      Grammar.sums.Visits (Source.ofList ['1', '+', '2']) (.calling ⟨6⟩ ⟨3, 0⟩ .recorded) s ∧
      s.control = .call ⟨5⟩ ⟨3, 0⟩ (Crumbs.root.enter 0 3) ∧
      ((Crumbs.root.enter 0 3).enter 5 3).entries.length
        ≤ (Grammar.sums.idsBelow ⟨6⟩).ncard * 4 := by
  have hends := search_ends Grammar.sums_complete Grammar.sums_total ['1', '+', '2']
  refine ⟨Grammar.sums_complete, Grammar.sums_total,
    hends.1 _ _ _ _ _ Grammar.sums_stage ⟨_, rfl⟩, ?_⟩
  have hvisits : Grammar.sums.Visits (Source.ofList ['1', '+', '2'])
      (.calling ⟨6⟩ ⟨3, 0⟩ .recorded) _ :=
    .next (.refl Grammar.sums_closed) (.next (.refl Grammar.sums_closed) .start rfl) rfl
  exact ⟨_, hvisits, rfl, (hends.2 3 _ _ _ _ _ hvisits rfl).2 _ rfl rfl⟩

end LazyGrammar

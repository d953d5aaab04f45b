import LazyGrammar.Proofs.Search.Likeness
import LazyGrammar.Proofs.Search.Refinement
import LazyGrammar.Proofs.Search.Unfolding

/-!
# LazyGrammar.Proofs.Search.Trails

**What is on a trail, and what a rule sees of it.** A rule only sees the rules below it that were
entered at its own position (`Grammar.outcomes_congr`). In a search from outside, all that a rule
has on its trail are rules on the way to it (`Unfolds.wayTo`).

Rules that were entered before a rule and that it does not reach are on its trail, but it does
not see them. So a construction around a rule may enter rules of its own without a change to what
the rule gives.
-/

namespace LazyGrammar

variable {τ α σ : Type}

/-! ### What a rule can see of its trail -/

namespace Crumbs

variable {crumbs : Crumbs} {id : RuleId} {ids : List RuleId} {c c' : Nat}

theorem holds_enter (crumbs : Crumbs) (id id' : RuleId) (c : Nat) :
    (crumbs.enter id c).holds id' c = (decide (id' = id) || crumbs.holds id' c) :=
  Trail.holds_enter crumbs id id' c

/-- Nothing further on is on the trail once a rule has been entered here. -/
theorem holds_enter_ahead (crumbs : Crumbs) (id id' : RuleId) (hlt : c < c') :
    (crumbs.enter id c).holds id' c' = false :=
  if_pos hlt

/-- None of the rules has been entered at the position. -/
def Clear (crumbs : Crumbs) (ids : List RuleId) (c : Nat) : Prop :=
  ∀ id ∈ ids, crumbs.holds id c = false

/-- Rules are entered one after another. -/
theorem Clear.enter (h : crumbs.Clear (id :: ids) c) (hnodup : (id :: ids).Nodup) :
    (crumbs.enter id c).Clear ids c := by
  intro id' hid'
  have hne : id' ≠ id := fun heq => (List.nodup_cons.1 hnodup).1 (heq ▸ hid')
  rw [holds_enter, decide_eq_false hne, h id' (List.mem_cons_of_mem _ hid')]
  rfl

theorem Clear.head (h : crumbs.Clear (id :: ids) c) : crumbs.holds id c = false :=
  h id (List.mem_cons_self ..)

theorem Clear.tail (h : crumbs.Clear (id :: ids) c) : crumbs.Clear ids c :=
  fun id' hid' => h id' (List.mem_cons_of_mem _ hid')

theorem clear_enter_ahead (crumbs : Crumbs) (id : RuleId) (ids : List RuleId) (hlt : c < c') :
    (crumbs.enter id c).Clear ids c' :=
  fun id' _ => crumbs.holds_enter_ahead id id' hlt

end Crumbs

namespace Grammar

variable {g : Grammar τ α σ} {tokens : List τ} {r r' : Rule} {place : Place}
  {crumbs crumbs' : Crumbs} {id : RuleId} {c : Nat}

/-- Two trails hold the same of the rules below a rule at a position. -/
def LooksSame (g : Grammar τ α σ) (r : Rule) (c : Nat) (crumbs crumbs' : Crumbs) : Prop :=
  ∀ id ∈ g.idsBelow r, crumbs.holds id c = crumbs'.holds id c

theorem LooksSame.of_uses (h : g.LooksSame r c crumbs crumbs') (hu : g.Uses r r') :
    g.LooksSame r' c crumbs crumbs' :=
  fun id hid => h id (idsBelow_of_uses hu hid)

theorem LooksSame.enter (h : g.LooksSame r c crumbs crumbs') (id : RuleId) :
    g.LooksSame r c (crumbs.enter id c) (crumbs'.enter id c) := by
  intro id' hid'
  rw [Crumbs.holds_enter, Crumbs.holds_enter, h id' hid']

/-- Rules that a rule does not reach may be entered before it. -/
theorem LooksSame.enter_left (h : g.LooksSame r c crumbs crumbs') (hid : id ∉ g.idsBelow r) :
    g.LooksSame r c (crumbs.enter id c) crumbs' := by
  intro id' hid'
  have hne : id' ≠ id := fun heq => hid (heq ▸ hid')
  rw [Crumbs.holds_enter, decide_eq_false hne, h id' hid']
  rfl

/-- **A rule only sees the rules below it on its trail**, and only at its own position. -/
theorem outcomes_congr (h : g.LooksSame r place.consumed crumbs crumbs') :
    g.outcomes tokens r place crumbs = g.outcomes tokens r place crumbs' := by
  induction hheight : g.height tokens place crumbs using Nat.strongRecOn
    generalizing r place crumbs crumbs' with
  | ind n ih =>
      subst hheight
      cases hnode : g.node? r with
      | none => rw [g.outcomes_eq, g.outcomes_eq, outcomesOnce, outcomesOnce, hnode]
      | some node =>
          have hself := h node.info.id (id_mem_idsBelow hnode)
          cases hheld : crumbs.holds node.info.id place.consumed with
          | true => rw [outcomes_held hnode hheld, outcomes_held hnode (hself.symm.trans hheld)]
          | false =>
              rw [outcomes_fresh hnode hheld, outcomes_fresh hnode (hself.symm.trans hheld)]
              refine Form.outcomes_congr hnode (fun r' q => g.outcomes_fits r' q _)
                fun r' q huses way => ih _ (g.height_lt hnode hheld way) ?_ rfl
              rcases Nat.eq_or_lt_of_le way.consumed_le with heq | hlt
              · exact heq ▸ (h.of_uses huses).enter node.info.id
              · intro id _
                exact (crumbs.holds_enter_ahead _ id hlt).trans
                  (crumbs'.holds_enter_ahead _ id hlt).symm

end Grammar

/-! ### What is on a trail -/

variable {g : Grammar τ α σ} {src : Source τ} {q r r' : Rule} {place : Place} {crumbs : Crumbs}
  {s s' t : State τ α} {visited : List (Moment τ α σ)} {seen : List (Sighting τ α)} {ended : Bool}

/-- Whatever is on the trail is a rule on the way to another one. -/
def Crumbs.WayTo (g : Grammar τ α σ) (crumbs : Crumbs) (r : Rule) : Prop :=
  ∀ id c, crumbs.holds id c = true →
    ∃ q node, g.node? q = some node ∧ node.info.id = id ∧ Relation.TransGen g.Uses q r

theorem Crumbs.eq_or_holds_of_enter {id id' : RuleId} {c c' : Nat}
    (h : (crumbs.enter id c).holds id' c' = true) : id' = id ∨ crumbs.holds id' c' = true := by
  simp only [Crumbs.enter, Crumbs.holds] at h
  split at h
  · cases h
  · split at h
    · next hsame => exact .inl hsame.1.symm
    · exact .inr h

/-- A rule that is entered is on the way to what it uses, and so is all that is before it. -/
theorem Crumbs.WayTo.enter {node : Node τ α} (h : crumbs.WayTo g q) (hnode : g.node? q = some node)
    (huses : g.Uses q r) (c : Nat) : (crumbs.enter node.info.id c).WayTo g r := by
  intro id c' hheld
  rcases Crumbs.eq_or_holds_of_enter hheld with rfl | hbefore
  · exact ⟨q, node, hnode, rfl, .single huses⟩
  · obtain ⟨q', node', hnode', hid, hway⟩ := h id c' hbefore
    exact ⟨q', node', hnode', hid, hway.tail huses⟩

/-- A search beside itself that names a rule with a trail only if the trail is one to the rule. -/
def Likeness.ways (g : Grammar τ α σ) : Likeness where
  rule crumbs r r' := r = r' ∧ crumbs.WayTo g r
  cell crumbs cell := ∀ r, g.target cell = .rule r → crumbs.WayTo g r
  info info info' := info = info'

namespace Machine

/-- **A step keeps the trails ways to the rules that are called with them.** -/
theorem step_ways (src : Source τ) (hs : s.Like (.ways g) s) :
    (step g src s).Like (.ways g) (step g src s) := by
  refine step_like hs ?_ fun {cell} _ _ _ hcell => ?_
  · rintro r place crumbs _ - ⟨rfl, hway⟩
    cases hnode : g.node? r with
    | none => exact .missing hnode hnode
    | some node =>
        cases hheld : crumbs.holds node.info.id place.consumed with
        | true => exact .refused hnode hnode rfl rfl hheld
        | false =>
            refine .entered hnode hnode rfl rfl hheld (Form.like_self (fun r' hpart => ?_) ?_)
            · exact ⟨rfl, hway.enter hnode (.part hnode hpart) _⟩
            · rintro cell weak hform r' htarget
              obtain ⟨info, form⟩ := node
              cases hform
              exact hway.enter hnode (.target hnode htarget) _
  · cases htarget : g.target cell with
    | rule r => exact .rule ⟨rfl, hcell r htarget⟩
    | fault f => exact .fault f
    | pending supplier => exact .pending supplier supplier
    | circular => exact .circular

end Machine

/-- **In a search from outside, a rule is called with a trail of rules on the way to it.** -/
theorem Unfolds.wayTo {p : Place} {trace : Trace} {m : Moment τ α σ}
    (h : Unfolds src [g] (.calling q p trace) visited seen ended t) (hm : m ∈ visited)
    (hcall : m.state.control = .call r place crumbs) : crumbs.WayTo g r := by
  have hstart : (State.calling q p trace).Like (.ways g) (State.calling q p trace : State τ α) :=
    ⟨.call p ⟨rfl, nofun⟩, .nil, rfl, .refl (fun _ => rfl) trace⟩
  have hlike := h.invariant (P := fun s => s.Like (.ways g) s) hstart ?_ ?_ m hm
  · have hcontrol := hlike.control
    rw [hcall] at hcontrol
    cases hcontrol with
    | call _ hway => exact hway.2
  · intro s s' hs hstep
    have hlike := Machine.step_ways src hs
    rw [hstep] at hlike
    cases hlike with
    | next h => exact h
  · intro s s' o tail hs hstep
    have hlike := Machine.step_ways src hs
    rw [hstep] at hlike
    cases hlike with
    | stream _ htail hbeside => exact hbeside.goTo (.force htail)

end LazyGrammar

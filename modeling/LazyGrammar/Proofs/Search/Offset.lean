import LazyGrammar.Proofs.Search.Fidelity
import LazyGrammar.Proofs.Search.Refinement

/-!
# LazyGrammar.Proofs.Search.Offset

**Calls only know relative positions.** A call in the middle of a search, after `c` tokens
and with a trail that lies behind, gives the stream that the same call gives on its own at
position 0, with `c` added to every position (`walk_ahead`).

A search compares positions and adds to them, and it does so in three ways: it asks for an
entry of the trail, it asks whether an item took a token, and it puts positions into
failures. The first is where earlier context could come in. What a trail holds at positions
from `c` on is all that the call can ask of it (`Crumbs.Ahead`), and a trail that lies behind
holds nothing there.
-/

namespace LazyGrammar

variable {τ α σ : Type}

/-! ### The same, further on -/

/-- The same place of the input, after `c` more tokens. -/
def Place.ahead (c : Nat) (place : Place) : Place := ⟨place.consumed + c, place.next⟩

/-- The same failure, after `c` more tokens. -/
def ParseError.ahead (c : Nat) (e : ParseError τ) : ParseError τ := ⟨e.consumed + c, e.reason⟩

/-- The same outcome, after `c` more tokens. -/
def Outcome.ahead (c : Nat) (o : Outcome τ α) : Outcome τ α :=
  ⟨o.place.ahead c, o.result.mapError (·.ahead c)⟩

section Ahead

variable (c : Nat)

@[simp] theorem Place.ahead_next (place : Place) : (place.ahead c).next = place.next := rfl

@[simp] theorem Place.ahead_consumed (place : Place) :
    (place.ahead c).consumed = place.consumed + c := rfl

theorem Place.ahead_advance (place : Place) :
    (place.ahead c).advance = place.advance.ahead c := by
  simp only [Place.advance, Place.ahead, Nat.add_right_comm]

@[simp] theorem Outcome.remaining_ahead (tokens : List τ) (o : Outcome τ α) :
    (o.ahead c).remaining tokens = o.remaining tokens := rfl

theorem Outcome.ahead_ofValue (place : Place) (value : Except Fault α) :
    (Outcome.ofValue place value : List (Outcome τ α)).map (Outcome.ahead c)
      = Outcome.ofValue (place.ahead c) value := by
  cases value <;> rfl

end Ahead

/-! ### The recursion, further on -/

variable {c : Nat} {g : Grammar τ α σ} {tokens : List τ}
  {use use' : Rule → Place → List (Outcome τ α)} {attempt attempt' : Place → List (Outcome τ α)}

/-- What follows outcomes that lie ahead, if all that follows lies ahead. -/
theorem followedBy_ahead {next next' : α → Place → List (Outcome τ α)}
    (hnext : ∀ v q, next v (q.ahead c) = (next' v q).map (Outcome.ahead c))
    (os : List (Outcome τ α)) :
    (os.map (Outcome.ahead c)).flatMap (Outcome.followedBy next)
      = (os.flatMap (Outcome.followedBy next')).map (Outcome.ahead c) := by
  rw [List.flatMap_map, List.map_flatMap]
  refine List.flatMap_congr fun o _ => ?_
  obtain ⟨place, result⟩ := o
  cases result with
  | ok v => exact hnext v place
  | error e => rfl

theorem sequenceOutcomes_ahead
    (huse : ∀ r q, use r (q.ahead c) = (use' r q).map (Outcome.ahead c))
    (build : List α → Except Fault α) (rules : List Rule) (values : List α) (place : Place) :
    sequenceOutcomes use build rules values (place.ahead c)
      = (sequenceOutcomes use' build rules values place).map (Outcome.ahead c) := by
  induction rules generalizing values place with
  | nil => exact (Outcome.ahead_ofValue c place _).symm
  | cons rule rules ih =>
      simp only [sequenceOutcomes, huse]
      exact followedBy_ahead (fun v q => ih _ q) _

/-- Whether an item took a token does not depend on where it started. -/
theorem runsWithin_ahead (hattempt : ∀ q, attempt (q.ahead c) = (attempt' q).map (Outcome.ahead c))
    (info : RuleInfo) (collect : List α → α) (n : Nat) (values : List α) (place : Place) :
    runsWithin attempt info collect n values (place.ahead c)
      = (runsWithin attempt' info collect n values place).map (Outcome.ahead c) := by
  induction n generalizing values place with
  | zero => rfl
  | succ n ih =>
      simp only [runsWithin, hattempt]
      refine followedBy_ahead (fun v q => ?_) _
      simp only [Place.ahead_consumed, Nat.add_right_cancel_iff, ih]
      split <;> rfl

theorem Form.outcomes_ahead (huse : ∀ r q, use r (q.ahead c) = (use' r q).map (Outcome.ahead c))
    (info : RuleInfo) (place : Place) (form : Form τ α) :
    form.outcomes g tokens info use (place.ahead c)
      = (form.outcomes g tokens info use' place).map (Outcome.ahead c) := by
  cases form with
  | terminal accept =>
      simp only [Form.outcomes, Place.ahead_next, Place.ahead_advance]
      split
      · rfl
      · split <;> rfl
  | epsilon value => rfl
  | endOfInput value =>
      simp only [Form.outcomes, Place.ahead_next]
      split <;> rfl
  | map inner f =>
      simp only [Form.outcomes, huse]
      exact followedBy_ahead (fun v q => (Outcome.ahead_ofValue c q (f v)).symm) _
  | repetition item collect => exact runsWithin_ahead (huse item) info collect _ [] place
  | reference cell weak =>
      simp only [Form.outcomes]
      split
      · exact huse _ place
      · rfl
  | oneOf first others =>
      simp only [Form.outcomes, List.map_flatMap, huse]
  | sequence first others build => exact sequenceOutcomes_ahead huse build _ [] place

/-! ### Trails, further on -/

namespace Crumbs

/-- From position `c` on, a trail holds what the other one holds from the start. -/
def Ahead (c : Nat) (crumbs crumbs' : Crumbs) : Prop :=
  ∀ id p, crumbs.holds id (p + c) = crumbs'.holds id p

/-- A trail that lies behind holds nothing from here on: the search for an entry stops at
the first one, however the others are ordered. -/
theorem Ahead.of_behind {crumbs : Crumbs} (h : ∀ entry ∈ crumbs.entries, entry.2 < c) :
    crumbs.Ahead c .root := by
  intro id p
  cases crumbs with
  | root => rfl
  | entered rule position depth before =>
      have hbehind : position < c := h (rule, position) (List.mem_cons_self ..)
      exact if_pos (Nat.lt_of_lt_of_le hbehind (Nat.le_add_left c p))

theorem Ahead.enter {crumbs crumbs' : Crumbs} (h : crumbs.Ahead c crumbs') (id : RuleId)
    (position : Nat) : (crumbs.enter id (position + c)).Ahead c (crumbs'.enter id position) := by
  intro id' p
  simp only [Crumbs.enter, Crumbs.holds, h id' p, Nat.add_lt_add_iff_right,
    Nat.add_right_cancel_iff]

end Crumbs

namespace Grammar

variable {crumbs crumbs' : Crumbs}

theorem outcomesWithin_ahead (h : crumbs.Ahead c crumbs') (n : Nat) (r : Rule) (place : Place) :
    g.outcomesWithin tokens n r (place.ahead c) crumbs
      = (g.outcomesWithin tokens n r place crumbs').map (Outcome.ahead c) := by
  induction n generalizing r place crumbs crumbs' with
  | zero => rfl
  | succ n ih =>
      simp only [outcomesWithin, outcomesOnce]
      split
      · rfl
      · next info form _ =>
        simp only [Trail.holds_crumbs, Place.ahead_consumed, h info.id place.consumed]
        split
        · rfl
        · exact Form.outcomes_ahead (fun r' q => ih (h.enter info.id place.consumed) r' q)
            info place form

/-- **The meaning of a rule is the same further on.** -/
theorem outcomes_ahead (h : crumbs.Ahead c crumbs') (r : Rule) (place : Place) :
    g.outcomes tokens r (place.ahead c) crumbs
      = (g.outcomes tokens r place crumbs').map (Outcome.ahead c) :=
  outcomesWithin_ahead h _ r place

end Grammar

/-! ### Walks, further on -/

variable {g₀ : Grammar τ α σ}

/-- **Calls are independent of what lies behind them.** Both walks come to an end. Theirs are
the same outcomes in the same order, with the same values, reasons and inputs left, where
`c` tokens more count as consumed in the first walk. Rules may still have to be made in
either of them. -/
theorem walk_ahead (tokens : List τ) {r : Rule} (hstage : g₀.Stage g) (hr : g₀.Has r)
    (hcomplete : g.Complete r) (htotal : g.Total r) {c : Nat} {crumbs : Crumbs}
    (hbehind : ∀ entry ∈ crumbs.entries, entry.2 < c) (demand : Nat) (trace : Trace) :
    ∃ found t found' t',
      Settles g (Source.ofList tokens) collect found t g₀ ⟨#[], none⟩
        ⟨.call r ⟨c, 0⟩ crumbs, [], demand, trace⟩ ∧
      Settles g (Source.ofList tokens) collect found' t' g₀ ⟨#[], none⟩
        ⟨.call r ⟨0, 0⟩ .root, [], demand, trace⟩ ∧
      found.toList.map (·.outcome) = (found'.toList.map (·.outcome)).map (Outcome.ahead c) ∧
      found.toList.map (·.outcome.remaining tokens)
        = found'.toList.map (·.outcome.remaining tokens) := by
  obtain ⟨found, t, hsettles, hfound⟩ :=
    settles_outcomes tokens hstage hr hcomplete htotal ⟨c, 0⟩ crumbs demand trace
  obtain ⟨found', t', hsettles', hfound'⟩ :=
    settles_outcomes tokens hstage hr hcomplete htotal ⟨0, 0⟩ .root demand trace
  have hstart : Place.ahead c ⟨0, 0⟩ = ⟨c, 0⟩ := by rw [Place.ahead, Nat.zero_add]
  have hahead : g.outcomes tokens r (Place.ahead c ⟨0, 0⟩) crumbs
      = (g.outcomes tokens r ⟨0, 0⟩ Crumbs.root).map (Outcome.ahead c) :=
    Grammar.outcomes_ahead (.of_behind hbehind) r ⟨0, 0⟩
  rw [hstart, ← hfound, ← hfound'] at hahead
  refine ⟨found, t, found', t', hsettles, hsettles', hahead, ?_⟩
  have hleft := congrArg (List.map (·.remaining tokens)) hahead
  simpa only [List.map_map, Function.comp_def, Outcome.remaining_ahead] using hleft

/-- Sums after three tokens, in the middle of a search that entered two rules behind, one
of them the sum itself: the failures are the same ones, three tokens further on. -/
theorem sums_walk_ahead :
    Grammar.sumsAtFirst.Stage Grammar.sums ∧ Grammar.sumsAtFirst.Has ⟨6⟩ ∧
    Grammar.sums.Complete ⟨6⟩ ∧ Grammar.sums.Total ⟨6⟩ ∧
    (∀ entry ∈ ((Crumbs.root.enter 6 2).enter 9 1).entries, entry.2 < 3) ∧
    ∃ (found : Array (Sighting Char Nat)) (t : State Char Nat)
      (found' : Array (Sighting Char Nat)) (t' : State Char Nat),
      Settles Grammar.sums (Source.ofList ['1', '2', '+', '3']) collect found t
        Grammar.sumsAtFirst ⟨#[], none⟩
        ⟨.call ⟨6⟩ ⟨3, 0⟩ ((Crumbs.root.enter 6 2).enter 9 1), [], 1, .silent⟩ ∧
      Settles Grammar.sums (Source.ofList ['1', '2', '+', '3']) collect found' t'
        Grammar.sumsAtFirst ⟨#[], none⟩ ⟨.call ⟨6⟩ ⟨0, 0⟩ .root, [], 1, .silent⟩ ∧
      found.toList.map (·.outcome) = (found'.toList.map (·.outcome)).map (Outcome.ahead 3) ∧
      found.toList.map (·.outcome.remaining ['1', '2', '+', '3'])
        = found'.toList.map (·.outcome.remaining ['1', '2', '+', '3']) := by
  have hbehind : ∀ entry ∈ ((Crumbs.root.enter 6 2).enter 9 1).entries, entry.2 < 3 := by decide
  exact ⟨Grammar.sums_stage, ⟨_, rfl⟩, Grammar.sums_complete, Grammar.sums_total, hbehind,
    walk_ahead ['1', '2', '+', '3'] Grammar.sums_stage ⟨_, rfl⟩ Grammar.sums_complete
      Grammar.sums_total hbehind 1 .silent⟩

end LazyGrammar

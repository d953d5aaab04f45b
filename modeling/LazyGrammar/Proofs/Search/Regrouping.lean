import LazyGrammar.Proofs.Search.Nesting

/-!
# LazyGrammar.Proofs.Search.Regrouping

**Sequences can be regrouped.** Rules one after another give the same outcomes in one sequence and
in sequences of sequences, whichever way they are grouped. Only the values differ: they are
nested as the groups are.

Design points:

* A bracketing is a `Nesting` whose groups are sequences, labelled by what they build. What it
  makes of the values of its rules is a function of them (`Nesting.values`).
* The sequences build at different times and go on from different frames. None of this shows in the
  meaning of a rule, in which a sequence is a row (`outcomes_sequence`) and rows are associative.
-/

namespace LazyGrammar

variable {τ α σ : Type}

/-! ### Nested values -/

namespace Nesting

mutual

/-- What becomes of the values of the rules: the value of a group, or that of a rule as it is. -/
def values : Nesting (List α → α) → List α → List α
  | single _, vs => vs
  | group _ _ build parts, vs => [build (valuesAll parts vs)]

def valuesAll : List (Nesting (List α → α)) → List α → List α
  | [], _ => []
  | part :: parts, vs =>
    values part (vs.take part.leaves.length) ++ valuesAll parts (vs.drop part.leaves.length)

end

variable {nested part : Nesting (List α → α)} {parts : List (Nesting (List α → α))} {vs ws : List α}

/-- A nesting has one value. -/
theorem exists_values (nested : Nesting (List α → α)) (hlength : vs.length = nested.leaves.length) :
    ∃ v, nested.values vs = [v] := by
  cases nested with
  | single r =>
      simp only [leaves, List.length_singleton] at hlength
      exact List.length_eq_one_iff.1 hlength
  | group r id build parts => exact ⟨_, rfl⟩

theorem valuesAll_append (hlength : vs.length = part.leaves.length) :
    valuesAll (part :: parts) (vs ++ ws) = part.values vs ++ valuesAll parts ws := by
  rw [valuesAll, List.take_left' hlength, List.drop_left' hlength]

theorem values_flat {r : Rule} {id : RuleId} {build : List α → α} {rules : List Rule}
    (hlength : vs.length = rules.length) : (flat r id build rules).values vs = [build vs] := by
  rw [flat, values]
  refine congrArg (fun vs => [build vs]) ?_
  induction rules generalizing vs with
  | nil => exact (List.length_eq_zero_iff.1 hlength).symm
  | cons rule rules ih =>
      obtain ⟨v, vs, rfl⟩ := List.exists_cons_of_length_eq_add_one hlength
      calc valuesAll (single rule :: rules.map single) ([v] ++ vs)
          = (single rule).values [v] ++ valuesAll (rules.map single) vs := valuesAll_append rfl
        _ = [v] ++ vs := by rw [values, ih (Nat.succ.inj hlength)]

end Nesting

/-! ### The meaning of a bracketing -/

namespace Grammar

variable {g : Grammar τ α σ} {tokens : List τ} {crumbs trail : Crumbs} {r : Rule} {q : Place}
  {start : Nat} {nested : Nesting (List α → α)}

/-- Parts one after another are their rules one after another. -/
theorem outcomes_parts {parts : List (Nesting (List α → α))}
    (hparts : ∀ part ∈ parts, ∀ q, start ≤ q.consumed →
      g.Sees start crumbs part.ids part.leaves trail q.consumed →
      g.outcomes tokens part.rule q trail
        = rowThen (fun r => g.itemOutcomes tokens r start crumbs)
            (fun vs q' => (part.values vs).map (.success q')) part.leaves q)
    (hstart : start ≤ q.consumed)
    (hsees : ∀ c, q.consumed ≤ c →
      g.Sees start crumbs (Nesting.idsAll parts) (Nesting.leavesAll parts) trail c)
    (next : List α → Place → List (Outcome τ α)) :
    rowThen (fun r q' => g.outcomes tokens r q' trail) next (parts.map Nesting.rule) q
      = rowThen (fun r => g.itemOutcomes tokens r start crumbs)
          (fun vs => next (Nesting.valuesAll parts vs)) (Nesting.leavesAll parts) q := by
  induction parts generalizing q next with
  | nil => rfl
  | cons part parts ih =>
      obtain ⟨hfirst, hrest⟩ := List.forall_mem_cons.1 hparts
      have hsees₁ := (hsees q.consumed (Nat.le_refl _)).mono
        (List.subset_append_left _ _) (List.subset_append_left _ _)
      rw [List.map_cons, rowThen, hfirst q hstart hsees₁, rowThen_flatMap, Nesting.leavesAll,
        rowThen_append]
      refine rowThen_congr_next (g.itemOutcomes_fits tokens start crumbs) _
        fun vs q' hlength way => ?_
      -- the part has one value, and the other parts go on from it
      obtain ⟨v, hv⟩ := Nesting.exists_values part hlength
      have hgoesOn := ih hrest (hstart.trans way.consumed_le) (fun c hle =>
        (hsees c (way.consumed_le.trans hle)).mono (List.subset_append_right _ _)
          (List.subset_append_right _ _)) fun vs => next (v :: vs)
      rw [hv, List.map_singleton, List.flatMap_singleton, Outcome.followedBy_ok _ rfl]
      refine hgoesOn.trans ?_
      simp only [Nesting.valuesAll_append hlength, hv, List.singleton_append]

/-- **A bracketing is its rules one after another**, with the values nested. -/
theorem outcomes_nesting (tokens : List τ) (hnested : nested.Stands g Form.Sequences)
    (hbelow : ∀ id ∈ nested.ids, ∀ r ∈ nested.leaves, id ∉ g.idsBelow r)
    (hstart : start ≤ q.consumed)
    (hsees : g.Sees start crumbs nested.ids nested.leaves trail q.consumed) :
    g.outcomes tokens nested.rule q trail
      = rowThen (fun r => g.itemOutcomes tokens r start crumbs)
          (fun vs q' => (nested.values vs).map (.success q')) nested.leaves q := by
  induction hnested generalizing q trail with
  | single r =>
      exact (hsees.outcomes_eq (List.mem_singleton_self r)).trans
        (rowThen_single (g.itemOutcomes_fits tokens start crumbs) r q).symm
  | @group r info form build parts hnode hform hid hparts ih =>
      obtain ⟨hself, hbelow⟩ := List.forall_mem_cons.1 hbelow
      have hinner : ∀ c, q.consumed ≤ c → g.Sees start crumbs (Nesting.idsAll parts)
          (Nesting.leavesAll parts) (trail.enter info.id q.consumed) c := fun c hle =>
        (hsees.mono (List.subset_cons_self _ _) (List.Subset.refl _)).enter hstart hid hself hle
      rw [Nesting.rule, outcomes_sequence tokens hnode hform hsees.clear.head]
      refine outcomes_parts (fun part hpart q' hstart' hsees' => ?_) hstart hinner _
      refine ih part hpart (fun id hid r hr => ?_) hstart' hsees'
      exact hbelow id (Nesting.ids_subset_idsAll hpart hid) r
        (Nesting.leaves_subset_leavesAll hpart hr)

end Grammar

/-! ### The same streams -/

/-- The outcome with its value changed. -/
def Outcome.changed (f : α → α) (o : Outcome τ α) : Outcome τ α := ⟨o.place, o.result.map f⟩

theorem rowThen_changed {use : Rule → Place → List (Outcome τ α)}
    {next : List α → Place → List (Outcome τ α)} (f : α → α) (rules : List Rule) (place : Place) :
    (rowThen use next rules place).map (Outcome.changed f)
      = rowThen use (fun vs q => (next vs q).map (Outcome.changed f)) rules place := by
  induction rules generalizing next place with
  | nil => rfl
  | cons rule rules ih =>
      rw [rowThen, rowThen, List.map_flatMap]
      refine List.flatMap_congr fun o _ => ?_
      cases hresult : o.result with
      | ok v => rw [Outcome.followedBy_ok _ hresult, Outcome.followedBy_ok _ hresult, ih]
      | error e =>
          rw [Outcome.followedBy_error _ hresult, Outcome.followedBy_error _ hresult]
          rfl

variable {g g₀ : Grammar τ α σ}

/-- **Sequences can be regrouped.** Rules in one sequence, and the same rules in sequences of
sequences, give the same outcomes in the same order, from every place of every input: at the same
places, with the same failures and the same tokens left, and with the same values once those of
the bracketing are flattened.

Nothing is asked of the rules but that they do not reach the sequences: they may match in many
ways, match nothing, or lead back to each other. The trail may hold whatever it likes but the
sequences themselves at the position, where they would be refused before they begin. -/
theorem sequences_regroup (tokens : List τ) {nested : Nesting (List α → α)} {flat : Rule}
    {info : RuleInfo} {form : Form τ α} {build : List α → α} {flatten : α → α}
    (hstage : g₀.Stage g) (hhas : g₀.Has nested.rule) (hflat : g₀.Has flat)
    (hnested : nested.Stands g Form.Sequences) (hnode : g.node? flat = some ⟨info, form⟩)
    (hform : form.Sequences build nested.leaves)
    (hleaves : ∀ r ∈ nested.leaves, g.Complete r ∧ g.Total r)
    (hbelow : ∀ id ∈ info.id :: nested.ids, ∀ r ∈ nested.leaves, id ∉ g.idsBelow r)
    (hflatten : ∀ vs, vs.length = nested.leaves.length →
      (nested.values vs).map flatten = [build vs])
    (place : Place) (crumbs : Crumbs)
    (hclear : crumbs.Clear (info.id :: nested.ids) place.consumed) (demand : Nat)
    (trace : Trace) :
    ∃ (found : Array (Sighting τ α)) (t : State τ α) (found' : Array (Sighting τ α))
      (t' : State τ α),
      Settles g (Source.ofList tokens) collect found t g₀ ⟨#[], none⟩
        ⟨.call flat place crumbs, [], demand, trace⟩ ∧
      Settles g (Source.ofList tokens) collect found' t' g₀ ⟨#[], none⟩
        ⟨.call nested.rule place crumbs, [], demand, trace⟩ ∧
      found.toList.map (·.outcome)
        = rowThen (fun r => g.itemOutcomes tokens r place.consumed crumbs)
            (fun vs q => [.success q (build vs)]) nested.leaves place ∧
      found.toList.map (·.outcome) = (found'.toList.map (·.outcome)).map (Outcome.changed flatten) ∧
      found.toList.map (·.outcome.remaining tokens)
        = found'.toList.map (·.outcome.remaining tokens) := by
  have hforms : ∀ build rules (form : Form τ α), form.Sequences build rules →
      form.Joins rules := fun _ _ _ h => h.joins
  have hstands : (Nesting.flat flat info.id build nested.leaves).Stands g Form.Sequences :=
    .flat hnode hform
  obtain ⟨hcomplete, htotal⟩ := hstands.works hforms (by simpa using hleaves)
  obtain ⟨hcomplete', htotal'⟩ := hnested.works hforms hleaves
  obtain ⟨found, t, hsettles, hfound⟩ :=
    settles_outcomes tokens hstage hflat hcomplete htotal place crumbs demand trace
  obtain ⟨found', t', hsettles', hfound'⟩ :=
    settles_outcomes tokens hstage hhas hcomplete' htotal' place crumbs demand trace
  obtain ⟨hself, hbelow⟩ := List.forall_mem_cons.1 hbelow
  have hflatRow := Grammar.outcomes_nesting tokens hstands (by simpa using hself)
    (Nat.le_refl place.consumed) (Grammar.sees_start (by simpa [Crumbs.Clear] using hclear.head) _)
  have hrow := Grammar.outcomes_nesting tokens hnested hbelow
    (Nat.le_refl place.consumed) (Grammar.sees_start hclear.tail _)
  have hfits := g.itemOutcomes_fits tokens place.consumed crumbs
  have hflatOutcomes : found.toList.map (·.outcome)
      = rowThen (fun r => g.itemOutcomes tokens r place.consumed crumbs)
          (fun vs q => [.success q (build vs)]) nested.leaves place := by
    rw [hfound]
    refine hflatRow.trans ?_
    rw [Nesting.leaves_flat]
    refine rowThen_congr_next hfits _ fun vs q hlength _ => ?_
    rw [Nesting.values_flat hlength, List.map_singleton]
  have houtcomes : found.toList.map (·.outcome)
      = (found'.toList.map (·.outcome)).map (Outcome.changed flatten) := by
    rw [hflatOutcomes, hfound', hrow, rowThen_changed]
    refine rowThen_congr_next hfits _ fun vs q hlength _ => ?_
    calc [Outcome.success q (build vs)]
        = [build vs].map (Outcome.success q) := rfl
      _ = ((nested.values vs).map flatten).map (Outcome.success q) := by rw [hflatten vs hlength]
      _ = ((nested.values vs).map (Outcome.success q)).map (Outcome.changed flatten) := by
          rw [List.map_map, List.map_map]
          rfl
  refine ⟨found, t, found', t', hsettles, hsettles', hflatOutcomes, houtcomes, ?_⟩
  have hremaining := congrArg (List.map (Outcome.remaining tokens)) houtcomes
  rwa [List.map_map, List.map_map, List.map_map] at hremaining

/-- Letters, some of which may be left out: three in one sequence, and the last two in a sequence
of their own. -/
def Grammar.letters : Grammar Char (List Char) Unit where
  nodes := #[
    ⟨⟨0, .select, none⟩, .terminal fun c => .ok (if c.isAlpha then some [c] else none)⟩,
    ⟨⟨1, .epsilon, none⟩, .epsilon []⟩,
    ⟨⟨2, .oneOf, none⟩, .oneOf ⟨0⟩ [⟨1⟩]⟩,
    ⟨⟨3, .sequence, none⟩, .sequence ⟨2⟩ [⟨0⟩, ⟨2⟩] fun vs => .ok (vs.flatten.filter Char.isAlpha)⟩,
    ⟨⟨4, .sequence, none⟩, .sequence ⟨0⟩ [⟨2⟩] fun vs => .ok ('(' :: vs.flatten ++ [')'])⟩,
    ⟨⟨5, .sequence, none⟩, .sequence ⟨2⟩ [⟨4⟩] fun vs => .ok ('(' :: vs.flatten ++ [')'])⟩]
  cells := #[]
  nextId := 6

/-- The letters with the last two in a sequence of their own. -/
def Grammar.lettersNested : Nesting (List (List Char) → List Char) :=
  .group ⟨5⟩ 5 (fun vs => '(' :: vs.flatten ++ [')'])
    [.single ⟨2⟩, .group ⟨4⟩ 4 (fun vs => '(' :: vs.flatten ++ [')']) [.single ⟨0⟩, .single ⟨2⟩]]

namespace Grammar

theorem lettersNested_stands : lettersNested.Stands letters Form.Sequences := by
  have houter : letters.node? ⟨5⟩ = some ⟨⟨5, .sequence, none⟩, _⟩ := rfl
  have hinner : letters.node? ⟨4⟩ = some ⟨⟨4, .sequence, none⟩, _⟩ := rfl
  refine .group houter (.sequence fun _ _ => rfl) (by decide) ?_
  refine List.forall_mem_cons.2 ⟨.single _, List.forall_mem_singleton.2 ?_⟩
  refine .group hinner (.sequence fun _ _ => rfl) (by decide) ?_
  exact List.forall_mem_cons.2 ⟨.single _, List.forall_mem_singleton.2 (.single _)⟩

theorem letters_values (vs : List (List Char)) (hlength : vs.length = lettersNested.leaves.length) :
    (lettersNested.values vs).map (List.filter Char.isAlpha)
      = [vs.flatten.filter Char.isAlpha] := by
  match vs, hlength with
  | [u, v, w], _ =>
      have hbrackets : '('.isAlpha = false ∧ ')'.isAlpha = false := by decide
      change [('(' :: [u, '(' :: [v, w].flatten ++ [')']].flatten ++ [')']).filter Char.isAlpha] = _
      simp [List.filter_append, hbrackets]

end Grammar

/-- The first and the last letter are left out or not, and nothing but the values tells how the
letters are grouped. -/
theorem letters_regroup :
    Grammar.letters.Stage Grammar.letters ∧ Grammar.letters.Has ⟨5⟩ ∧ Grammar.letters.Has ⟨3⟩ ∧
    Grammar.lettersNested.Stands Grammar.letters Form.Sequences ∧
    (∀ r ∈ Grammar.lettersNested.leaves, Grammar.letters.Complete r ∧ Grammar.letters.Total r) ∧
    (∀ id ∈ 3 :: Grammar.lettersNested.ids, ∀ r ∈ Grammar.lettersNested.leaves,
      id ∉ Grammar.letters.idsBelow r) ∧
    (∀ vs : List (List Char), vs.length = Grammar.lettersNested.leaves.length →
      (Grammar.lettersNested.values vs).map (List.filter Char.isAlpha)
        = [vs.flatten.filter Char.isAlpha]) ∧
    (Crumbs.root.enter 0 4).Clear (3 :: Grammar.lettersNested.ids) 5 ∧
    ∃ (found : Array (Sighting Char (List Char))) (t : State Char (List Char))
      (found' : Array (Sighting Char (List Char))) (t' : State Char (List Char)),
      Settles Grammar.letters (Source.ofList ['a', 'b']) collect found t Grammar.letters
        ⟨#[], none⟩ ⟨.call ⟨3⟩ ⟨5, 0⟩ (Crumbs.root.enter 0 4), [], 1, .silent⟩ ∧
      Settles Grammar.letters (Source.ofList ['a', 'b']) collect found' t' Grammar.letters
        ⟨#[], none⟩ ⟨.call ⟨5⟩ ⟨5, 0⟩ (Crumbs.root.enter 0 4), [], 1, .silent⟩ ∧
      found.toList.map (·.outcome) = [.failure ⟨7, .unexpectedEnd⟩ 2, .success ⟨7, 2⟩ ['a', 'b'],
        .success ⟨7, 2⟩ ['a', 'b'], .success ⟨6, 1⟩ ['a']] ∧
      found.toList.map (·.outcome)
        = (found'.toList.map (·.outcome)).map (Outcome.changed (List.filter Char.isAlpha)) ∧
      found.toList.map (·.outcome.remaining ['a', 'b'])
        = found'.toList.map (·.outcome.remaining ['a', 'b']) := by
  have hclosed : Grammar.letters.Closed := Grammar.closed_of_all rfl rfl
  have hnode : Grammar.letters.node? ⟨3⟩ = some ⟨⟨3, .sequence, none⟩, _⟩ := rfl
  have htotal : ∀ r, Grammar.letters.Total r :=
    Grammar.total_of_all (by simp [Grammar.letters, Form.Total])
  have hunder : Grammar.letters.closedUnder [⟨0⟩, ⟨1⟩, ⟨2⟩] = true := rfl
  have hleaves : ∀ r ∈ Grammar.lettersNested.leaves,
      Grammar.letters.Complete r ∧ Grammar.letters.Total r := fun r hr =>
    ⟨Grammar.complete_of_closedUnder hunder (by revert r; decide), htotal r⟩
  have hbelow : ∀ id ∈ 3 :: Grammar.lettersNested.ids, ∀ r ∈ Grammar.lettersNested.leaves,
      id ∉ Grammar.letters.idsBelow r := fun id hid r hr =>
    Grammar.not_mem_idsBelow_of_closedUnder hunder (by revert id; decide) (by revert r; decide)
  have hclear : (Crumbs.root.enter 0 4).Clear (3 :: Grammar.lettersNested.ids) 5 := by
    unfold Crumbs.Clear
    decide
  obtain ⟨found, t, found', t', hsettles, hsettles', hfound, hsame, hremaining⟩ :=
    sequences_regroup ['a', 'b'] (.refl hclosed) ⟨_, rfl⟩ ⟨_, rfl⟩ Grammar.lettersNested_stands
      hnode (.sequence fun _ _ => rfl) hleaves hbelow Grammar.letters_values ⟨5, 0⟩
      (Crumbs.root.enter 0 4) hclear 1 .silent
  exact ⟨.refl hclosed, ⟨_, rfl⟩, ⟨_, rfl⟩, Grammar.lettersNested_stands, hleaves, hbelow,
    Grammar.letters_values, hclear, found, t, found', t', hsettles, hsettles', hfound.trans rfl,
    hsame, hremaining⟩

end LazyGrammar

import LazyGrammar.Proofs.Search.Nesting

/-!
# LazyGrammar.Proofs.Search.Distribution

**Sequencing distributes over alternatives.** Alternatives with other rules after them give the
same stream whether the other rules follow the choice or each of the alternatives; and grouping
the alternatives of a choice changes nothing.

Design points:

* `Factored` and `Distributed` are the two constructions as they stand in a grammar, with the proof
  that they are built that way. Both are made of sequences that continue an alternative or a choice
  (`Continued`).
* One flattens a concatenation, the other concatenates flattenings. Which rules the other rules
  find on their trails differs, but they see none of them.
-/

namespace LazyGrammar

variable {τ α σ : Type}

/-! ### Choices -/

/-- A choice of the rules. -/
inductive Form.Chooses : List Rule → Form τ α → Prop
  | oneOf (first : Rule) (others : List Rule) : Chooses (first :: others) (.oneOf first others)

theorem Form.Chooses.joins {rules : List Rule} {form : Form τ α} (h : form.Chooses rules) :
    form.Joins rules := by
  cases h with
  | oneOf first others => exact ⟨nofun, rfl, trivial⟩

namespace Grammar

variable {g : Grammar τ α σ} {crumbs trail : Crumbs} {r : Rule} {q : Place} {start : Nat}
  {info : RuleInfo} {form : Form τ α} {rules alternatives others : List Rule} {f : List α → α}

theorem outcomes_choice (tokens : List τ) (hnode : g.node? r = some ⟨info, form⟩)
    (hform : form.Chooses rules) (hfresh : trail.holds info.id q.consumed = false) :
    g.outcomes tokens r q trail
      = rules.flatMap fun r' => g.outcomes tokens r' q (trail.enter info.id q.consumed) := by
  cases hform with
  | oneOf first others =>
      rw [outcomes_fresh hnode hfresh]
      rfl

/-- **Grouped alternatives are the alternatives in order.** -/
theorem outcomes_alternatives (tokens : List τ) {nested : Nesting Unit}
    (hnested : nested.Stands g fun _ rules form => form.Chooses rules)
    (hbelow : ∀ id ∈ nested.ids, ∀ r ∈ nested.leaves, id ∉ g.idsBelow r)
    (hstart : start ≤ q.consumed)
    (hsees : g.Sees start crumbs nested.ids nested.leaves trail q.consumed) :
    g.outcomes tokens nested.rule q trail
      = nested.leaves.flatMap fun r => g.itemOutcomes tokens r start crumbs q := by
  induction hnested generalizing trail with
  | single r =>
      rw [Nesting.rule, hsees.outcomes_eq (List.mem_singleton_self r), Nesting.leaves,
        List.flatMap_singleton]
  | @group r info form label parts hnode hform hid hparts ih =>
      obtain ⟨hself, hbelow⟩ := List.forall_mem_cons.1 hbelow
      have hinner : g.Sees start crumbs (Nesting.idsAll parts) (Nesting.leavesAll parts)
          (trail.enter info.id q.consumed) q.consumed :=
        (hsees.mono (List.subset_cons_self _ _) (List.Subset.refl _)).enter hstart hid hself
          (Nat.le_refl _)
      rw [Nesting.rule, outcomes_choice tokens hnode hform hsees.clear.head, Nesting.leaves,
        Nesting.leavesAll_eq, List.flatMap_assoc, List.flatMap_map]
      refine List.flatMap_congr fun part hpart => ?_
      have hids := Nesting.ids_subset_idsAll hpart
      have hleaves := Nesting.leaves_subset_leavesAll hpart
      exact ih part hpart (fun id hid r hr => hbelow id (hids hid) r (hleaves hr))
        (hinner.mono hids hleaves)

/-! ### The two constructions -/

/-- A rule, then other rules, in a sequence with a function of the values. -/
structure Continued (g : Grammar τ α σ) (others : List Rule) (f : List α → α) where
  first : Rule
  rule : Rule
  info : RuleInfo
  form : Form τ α
  node : g.node? rule = some ⟨info, form⟩
  sequence : form.Sequences f (first :: others)

/-- Any of the alternatives, then the other rules. -/
structure Factored (g : Grammar τ α σ) (alternatives others : List Rule) (f : List α → α) where
  whole : g.Continued others f
  choiceInfo : RuleInfo
  choiceForm : Form τ α
  node : g.node? whole.first = some ⟨choiceInfo, choiceForm⟩
  choice : choiceForm.Chooses alternatives
  distinct : whole.info.id ≠ choiceInfo.id

/-- Any of the alternatives, each with the other rules after it. -/
structure Distributed (g : Grammar τ α σ) (alternatives others : List Rule)
    (f : List α → α) where
  rule : Rule
  info : RuleInfo
  form : Form τ α
  branches : List (g.Continued others f)
  node : g.node? rule = some ⟨info, form⟩
  choice : form.Chooses (branches.map (·.rule))
  firsts : branches.map (·.first) = alternatives
  distinct : info.id ∉ branches.map (·.info.id)

/-- The identities of the rules of the construction. -/
def Factored.ids (h : g.Factored alternatives others f) : List RuleId :=
  [h.whole.info.id, h.choiceInfo.id]

/-- The identities of the rules of the construction. -/
def Distributed.ids (h : g.Distributed alternatives others f) : List RuleId :=
  h.info.id :: h.branches.map (·.info.id)

theorem Continued.works (h : g.Continued others f)
    (hfirst : g.Complete h.first ∧ g.Total h.first)
    (hothers : ∀ r ∈ others, g.Complete r ∧ g.Total r) :
    g.Complete h.rule ∧ g.Total h.rule :=
  works_of_joins h.node h.sequence.joins (List.forall_mem_cons.2 ⟨hfirst, hothers⟩)

theorem Factored.works (h : g.Factored alternatives others f)
    (hrules : ∀ r ∈ alternatives ++ others, g.Complete r ∧ g.Total r) :
    g.Complete h.whole.rule ∧ g.Total h.whole.rule := by
  obtain ⟨halternatives, hothers⟩ := List.forall_mem_append.1 hrules
  exact h.whole.works (works_of_joins h.node h.choice.joins halternatives) hothers

theorem Distributed.works (h : g.Distributed alternatives others f)
    (hrules : ∀ r ∈ alternatives ++ others, g.Complete r ∧ g.Total r) :
    g.Complete h.rule ∧ g.Total h.rule := by
  obtain ⟨halternatives, hothers⟩ := List.forall_mem_append.1 hrules
  rw [← h.firsts, List.forall_mem_map] at halternatives
  refine works_of_joins h.node h.choice.joins (List.forall_mem_map.2 fun branch hbranch => ?_)
  exact branch.works (halternatives branch hbranch) hothers

/-! ### Their meaning -/

/-- What the other rules make of a value. -/
def continuation (g : Grammar τ α σ) (tokens : List τ) (start : Nat) (crumbs : Crumbs)
    (others : List Rule) (f : List α → α) (v : α) (q : Place) : List (Outcome τ α) :=
  rowThen (fun r => g.itemOutcomes tokens r start crumbs) (fun vs q' => [.success q' (f (v :: vs))])
    others q

/-- The other rules go on from each outcome of the first rule. -/
theorem Continued.outcomes_eq (h : g.Continued others f) (tokens : List τ)
    (hbelow : ∀ r ∈ others, h.info.id ∉ g.idsBelow r) (hstart : start ≤ q.consumed)
    (hsees : g.Sees start crumbs [h.info.id] others trail q.consumed) :
    g.outcomes tokens h.rule q trail
      = (g.outcomes tokens h.first q (trail.enter h.info.id q.consumed)).flatMap
          (Outcome.followedBy (g.continuation tokens start crumbs others f)) := by
  rw [outcomes_sequence tokens h.node h.sequence hsees.clear.head, rowThen]
  refine followedBy_congr (g.outcomes_fits _ q _) fun v q' way => ?_
  refine rowThen_congr (fun r q => g.outcomes_fits r q _) others fun r hr q'' way' => ?_
  have hlater := (hsees.mono (List.nil_subset _) (List.Subset.refl _)).enter hstart
    List.not_mem_nil hbelow ((way.trans way').consumed_le)
  exact hlater.outcomes_eq hr

/-- **A choice that is continued** flattens the concatenation of its alternatives. -/
theorem Factored.outcomes_eq (h : g.Factored alternatives others f) (tokens : List τ)
    (hbelow : ∀ id ∈ h.ids, ∀ r ∈ alternatives ++ others, id ∉ g.idsBelow r)
    (hclear : crumbs.Clear h.ids q.consumed) :
    g.outcomes tokens h.whole.rule q crumbs
      = (alternatives.flatMap fun r => g.itemOutcomes tokens r q.consumed crumbs q).flatMap
          (Outcome.followedBy (g.continuation tokens q.consumed crumbs others f)) := by
  obtain ⟨hwhole, hchoice, -⟩ := by simpa only [ids, List.forall_mem_cons] using hbelow
  have houtside : g.Sees q.consumed crumbs h.ids (alternatives ++ others) crumbs q.consumed :=
    sees_start hclear _
  have hinside := (houtside.mono (List.subset_cons_self _ _) (List.subset_append_left _ _)).enter
    (Nat.le_refl _) (mt List.mem_singleton.1 h.distinct)
    (fun r hr => hwhole r (List.mem_append_left _ hr)) (Nat.le_refl _)
  have hfirst := (hinside.mono (List.nil_subset _) (List.Subset.refl _)).enter (Nat.le_refl _)
    List.not_mem_nil (fun r hr => hchoice r (List.mem_append_left _ hr)) (Nat.le_refl _)
  rw [h.whole.outcomes_eq tokens (fun r hr => hwhole r (List.mem_append_right _ hr))
    (Nat.le_refl _) (houtside.mono (by simp [ids]) (List.subset_append_right _ _)),
    outcomes_choice tokens h.node h.choice hinside.clear.head]
  exact congrArg (List.flatMap _) (List.flatMap_congr fun r hr => hfirst.outcomes_eq hr)

theorem Distributed.flatMap_firsts (h : g.Distributed alternatives others f)
    (use : Rule → List (Outcome τ α)) :
    h.branches.flatMap (fun branch => use branch.first) = alternatives.flatMap use := by
  calc h.branches.flatMap (fun branch => use branch.first)
      = (h.branches.map (·.first)).flatMap use := by rw [List.flatMap_map]
    _ = alternatives.flatMap use := congrArg (List.flatMap use) h.firsts

/-- **A choice of continued rules** concatenates the flattenings. -/
theorem Distributed.outcomes_eq (h : g.Distributed alternatives others f) (tokens : List τ)
    (hbelow : ∀ id ∈ h.ids, ∀ r ∈ alternatives ++ others, id ∉ g.idsBelow r)
    (hclear : crumbs.Clear h.ids q.consumed) :
    g.outcomes tokens h.rule q crumbs
      = alternatives.flatMap fun r => (g.itemOutcomes tokens r q.consumed crumbs q).flatMap
          (Outcome.followedBy (g.continuation tokens q.consumed crumbs others f)) := by
  obtain ⟨hself, hbranches⟩ := by simpa only [ids, List.forall_mem_cons] using hbelow
  have hinside := ((sees_start hclear (alternatives ++ others)).mono (List.subset_cons_self _ _)
    (List.Subset.refl _)).enter (g := g) (Nat.le_refl _) h.distinct hself (Nat.le_refl _)
  have hbranch : ∀ branch ∈ h.branches,
      g.outcomes tokens branch.rule q (crumbs.enter h.info.id q.consumed)
        = (g.itemOutcomes tokens branch.first q.consumed crumbs q).flatMap
            (Outcome.followedBy (g.continuation tokens q.consumed crumbs others f)) := by
    intro branch hbranch
    have hid := List.mem_map_of_mem (f := (·.info.id)) hbranch
    have hfirst : branch.first ∈ alternatives ++ others :=
      List.mem_append_left _ (h.firsts ▸ List.mem_map_of_mem hbranch)
    have hnone := (hinside.mono (List.nil_subset _) (List.Subset.refl _)).enter (Nat.le_refl _)
      List.not_mem_nil (hbranches _ hid) (Nat.le_refl _)
    rw [branch.outcomes_eq tokens (fun r hr => hbranches _ hid r (List.mem_append_right _ hr))
      (Nat.le_refl _)
      (hinside.mono (List.cons_subset.2 ⟨hid, List.nil_subset _⟩) (List.subset_append_right _ _)),
      hnone.outcomes_eq hfirst]
  rw [outcomes_choice tokens h.node h.choice hclear.head, List.flatMap_map,
    List.flatMap_congr hbranch]
  exact h.flatMap_firsts fun r => (g.itemOutcomes tokens r q.consumed crumbs q).flatMap _

end Grammar

/-! ### The same streams -/

variable {g g₀ : Grammar τ α σ}

/-- Two rules give the same stream, when they are called at a place with a trail. -/
def SameStream (g₀ g : Grammar τ α σ) (tokens : List τ) (r r' : Rule) (place : Place)
    (crumbs : Crumbs) (demand : Nat) (trace : Trace) : Prop :=
  ∃ (found : Array (Sighting τ α)) (t : State τ α) (found' : Array (Sighting τ α))
    (t' : State τ α),
    Settles g (Source.ofList tokens) collect found t g₀ ⟨#[], none⟩
      ⟨.call r place crumbs, [], demand, trace⟩ ∧
    Settles g (Source.ofList tokens) collect found' t' g₀ ⟨#[], none⟩
      ⟨.call r' place crumbs, [], demand, trace⟩ ∧
    found.toList.map (·.outcome) = found'.toList.map (·.outcome) ∧
    found.toList.map (·.outcome.remaining tokens) = found'.toList.map (·.outcome.remaining tokens)

/-- Rules with the same outcomes give the same stream. -/
theorem sameStream_of_outcomes {tokens : List τ} {r r' : Rule} {place : Place} {crumbs : Crumbs}
    (hstage : g₀.Stage g) (hr : g₀.Has r) (hr' : g₀.Has r') (hworks : g.Complete r ∧ g.Total r)
    (hworks' : g.Complete r' ∧ g.Total r')
    (hsame : g.outcomes tokens r place crumbs = g.outcomes tokens r' place crumbs) (demand : Nat)
    (trace : Trace) : SameStream g₀ g tokens r r' place crumbs demand trace := by
  obtain ⟨found, t, hsettles, hfound⟩ :=
    settles_outcomes tokens hstage hr hworks.1 hworks.2 place crumbs demand trace
  obtain ⟨found', t', hsettles', hfound'⟩ :=
    settles_outcomes tokens hstage hr' hworks'.1 hworks'.2 place crumbs demand trace
  have houtcomes := hfound.trans (hsame.trans hfound'.symm)
  refine ⟨found, t, found', t', hsettles, hsettles', houtcomes, ?_⟩
  have hremaining := congrArg (List.map (Outcome.remaining tokens)) houtcomes
  rwa [List.map_map, List.map_map] at hremaining

/-- **Sequencing distributes over alternatives on the left**: alternatives with other rules after
them give the same stream whether the other rules follow the choice or each alternative. And
**alternatives can be grouped**: choices within a choice give the stream of the choice of all. The
streams have the same outcomes in the same order, at the same places, with the same values and
failures and with the same tokens left, from every place of every input.

Nothing is asked of the rules but that they do not reach the constructions: they may match in many
ways, match nothing, or lead back to each other. The trail may hold whatever it likes but the
rules of the constructions themselves at the position. -/
theorem sequencing_distributes_over_alternatives (tokens : List τ) (hstage : g₀.Stage g)
    (place : Place) (crumbs : Crumbs) (demand : Nat) (trace : Trace) :
    (∀ {alternatives others : List Rule} {f : List α → α}
      (factored : g.Factored alternatives others f)
      (distributed : g.Distributed alternatives others f),
      g₀.Has factored.whole.rule → g₀.Has distributed.rule →
      (∀ r ∈ alternatives ++ others, g.Complete r ∧ g.Total r) →
      (∀ id ∈ factored.ids ++ distributed.ids, ∀ r ∈ alternatives ++ others,
        id ∉ g.idsBelow r) →
      crumbs.Clear (factored.ids ++ distributed.ids) place.consumed →
      SameStream g₀ g tokens factored.whole.rule distributed.rule place crumbs demand trace) ∧
    (∀ {nested : Nesting Unit} {flat : Rule} {info : RuleInfo} {form : Form τ α},
      nested.Stands g (fun _ rules form => form.Chooses rules) →
      g.node? flat = some ⟨info, form⟩ → form.Chooses nested.leaves →
      g₀.Has nested.rule → g₀.Has flat →
      (∀ r ∈ nested.leaves, g.Complete r ∧ g.Total r) →
      (∀ id ∈ info.id :: nested.ids, ∀ r ∈ nested.leaves, id ∉ g.idsBelow r) →
      crumbs.Clear (info.id :: nested.ids) place.consumed →
      SameStream g₀ g tokens nested.rule flat place crumbs demand trace) := by
  constructor
  · intro alternatives others f factored distributed hfactored hdistributed hrules hbelow hclear
    rw [List.forall_mem_append] at hbelow
    have hclears := List.forall_mem_append.1 hclear
    refine sameStream_of_outcomes hstage hfactored hdistributed (factored.works hrules)
      (distributed.works hrules) ?_ demand trace
    rw [factored.outcomes_eq tokens hbelow.1 hclears.1,
      distributed.outcomes_eq tokens hbelow.2 hclears.2, List.flatMap_assoc]
  · intro nested flat info form hnested hnode hform hhas hflat hleaves hbelow hclear
    have hstands : (Nesting.flat flat info.id () nested.leaves).Stands g
        fun _ rules form => form.Chooses rules := .flat hnode hform
    obtain ⟨hself, hbelow⟩ := List.forall_mem_cons.1 hbelow
    refine sameStream_of_outcomes hstage hhas hflat (hnested.works (fun _ _ _ h => h.joins) hleaves)
      (Grammar.works_of_joins hnode hform.joins hleaves) ?_ demand trace
    have halternatives := Grammar.outcomes_alternatives tokens hnested hbelow
      (Nat.le_refl place.consumed) (Grammar.sees_start hclear.tail _)
    have hflatAlternatives := Grammar.outcomes_alternatives tokens hstands
      (by simpa using hself) (Nat.le_refl place.consumed)
      (Grammar.sees_start (by simpa [Crumbs.Clear] using hclear.head) _)
    rw [Nesting.leaves_flat] at hflatAlternatives
    exact halternatives.trans hflatAlternatives.symm

namespace Grammar

/-- One letter, or one or none, and then one or none: with the choice first, and with a choice of
sequences. A choice of the two and nothing, in one and in two. -/
def choices : Grammar Char (List Char) Unit where
  nodes := #[
    ⟨⟨0, .select, none⟩, .terminal fun c => .ok (if c.isAlpha then some [c] else none)⟩,
    ⟨⟨1, .epsilon, none⟩, .epsilon []⟩,
    ⟨⟨2, .oneOf, none⟩, .oneOf ⟨0⟩ [⟨1⟩]⟩,
    ⟨⟨3, .oneOf, none⟩, .oneOf ⟨0⟩ [⟨2⟩]⟩,
    ⟨⟨4, .sequence, none⟩, .sequence ⟨3⟩ [⟨2⟩] fun vs => .ok vs.flatten⟩,
    ⟨⟨5, .sequence, none⟩, .sequence ⟨0⟩ [⟨2⟩] fun vs => .ok vs.flatten⟩,
    ⟨⟨6, .sequence, none⟩, .sequence ⟨2⟩ [⟨2⟩] fun vs => .ok vs.flatten⟩,
    ⟨⟨7, .oneOf, none⟩, .oneOf ⟨5⟩ [⟨6⟩]⟩,
    ⟨⟨8, .oneOf, none⟩, .oneOf ⟨1⟩ [⟨2⟩]⟩,
    ⟨⟨9, .oneOf, none⟩, .oneOf ⟨0⟩ [⟨8⟩]⟩,
    ⟨⟨10, .oneOf, none⟩, .oneOf ⟨0⟩ [⟨1⟩, ⟨2⟩]⟩]
  cells := #[]
  nextId := 11

def choicesFactored : choices.Factored [⟨0⟩, ⟨2⟩] [⟨2⟩] List.flatten where
  whole := ⟨⟨3⟩, ⟨4⟩, ⟨4, .sequence, none⟩, _, rfl, .sequence fun _ _ => rfl⟩
  choiceInfo := ⟨3, .oneOf, none⟩
  choiceForm := _
  node := rfl
  choice := .oneOf _ _
  distinct := by decide

def choicesDistributed : choices.Distributed [⟨0⟩, ⟨2⟩] [⟨2⟩] List.flatten where
  rule := ⟨7⟩
  info := ⟨7, .oneOf, none⟩
  form := _
  branches := [⟨⟨0⟩, ⟨5⟩, ⟨5, .sequence, none⟩, _, rfl, .sequence fun _ _ => rfl⟩,
    ⟨⟨2⟩, ⟨6⟩, ⟨6, .sequence, none⟩, _, rfl, .sequence fun _ _ => rfl⟩]
  node := rfl
  choice := .oneOf _ _
  firsts := rfl
  distinct := by decide

def choicesNested : Nesting Unit :=
  .group ⟨9⟩ 9 () [.single ⟨0⟩, .group ⟨8⟩ 8 () [.single ⟨1⟩, .single ⟨2⟩]]

theorem choicesNested_stands :
    choicesNested.Stands choices fun _ rules form => form.Chooses rules := by
  have houter : choices.node? ⟨9⟩ = some ⟨⟨9, .oneOf, none⟩, _⟩ := rfl
  have hinner : choices.node? ⟨8⟩ = some ⟨⟨8, .oneOf, none⟩, _⟩ := rfl
  refine .group houter (.oneOf _ _) (by decide) ?_
  refine List.forall_mem_cons.2 ⟨.single _, List.forall_mem_singleton.2 ?_⟩
  refine .group hinner (.oneOf _ _) (by decide) ?_
  exact List.forall_mem_cons.2 ⟨.single _, List.forall_mem_singleton.2 (.single _)⟩

end Grammar

/-- The first rule matches one letter or none, and so does the second one. -/
theorem choices_distribute :
    Grammar.choices.Stage Grammar.choices ∧
    (Grammar.choices.Has ⟨4⟩ ∧ Grammar.choices.Has ⟨7⟩ ∧ Grammar.choices.Has ⟨9⟩ ∧
      Grammar.choices.Has ⟨10⟩) ∧
    (∀ r ∈ ([⟨0⟩, ⟨1⟩, ⟨2⟩] : List Rule), Grammar.choices.Complete r ∧ Grammar.choices.Total r) ∧
    (∀ id ∈ [3, 4, 5, 6, 7, 8, 9, 10], ∀ r ∈ ([⟨0⟩, ⟨1⟩, ⟨2⟩] : List Rule),
      id ∉ Grammar.choices.idsBelow r) ∧
    Grammar.choicesNested.Stands Grammar.choices (fun _ rules form => form.Chooses rules) ∧
    (Crumbs.root.enter 2 5).Clear [3, 4, 5, 6, 7, 8, 9, 10] 5 ∧
    SameStream Grammar.choices Grammar.choices ['a', 'b'] ⟨4⟩ ⟨7⟩ ⟨5, 0⟩ (Crumbs.root.enter 2 5) 1
      .silent ∧
    SameStream Grammar.choices Grammar.choices ['a', 'b'] ⟨9⟩ ⟨10⟩ ⟨5, 0⟩ (Crumbs.root.enter 2 5) 1
      .silent := by
  have hclosed : Grammar.choices.Closed := Grammar.closed_of_all rfl rfl
  have hflat : Grammar.choices.node? ⟨10⟩ = some ⟨⟨10, .oneOf, none⟩, _⟩ := rfl
  have hunder : Grammar.choices.closedUnder [⟨0⟩, ⟨1⟩, ⟨2⟩] = true := rfl
  have hworks : ∀ r ∈ ([⟨0⟩, ⟨1⟩, ⟨2⟩] : List Rule),
      Grammar.choices.Complete r ∧ Grammar.choices.Total r := fun r hr =>
    ⟨Grammar.complete_of_closedUnder hunder hr,
      Grammar.total_of_all (by simp [Grammar.choices, Form.Total]) r⟩
  have hbelow : ∀ id ∈ [3, 4, 5, 6, 7, 8, 9, 10], ∀ r ∈ ([⟨0⟩, ⟨1⟩, ⟨2⟩] : List Rule),
      id ∉ Grammar.choices.idsBelow r := fun id hid r hr =>
    Grammar.not_mem_idsBelow_of_closedUnder hunder (by revert id; decide) hr
  have hclear : (Crumbs.root.enter 2 5).Clear [3, 4, 5, 6, 7, 8, 9, 10] 5 := by
    unfold Crumbs.Clear
    decide
  obtain ⟨hdistributes, hgroups⟩ := sequencing_distributes_over_alternatives ['a', 'b']
    (.refl hclosed) ⟨5, 0⟩ (Crumbs.root.enter 2 5) 1 .silent
  have hids : Grammar.choicesFactored.ids ++ Grammar.choicesDistributed.ids
      ⊆ [3, 4, 5, 6, 7, 8, 9, 10] := by decide
  have hids' : 10 :: Grammar.choicesNested.ids ⊆ [3, 4, 5, 6, 7, 8, 9, 10] := by decide
  have hrules : ([⟨0⟩, ⟨2⟩] ++ [⟨2⟩] : List Rule) ⊆ [⟨0⟩, ⟨1⟩, ⟨2⟩] := by decide
  have hsame := hdistributes Grammar.choicesFactored Grammar.choicesDistributed ⟨_, rfl⟩ ⟨_, rfl⟩
    (fun r hr => hworks r (hrules hr)) (fun id hid r hr => hbelow id (hids hid) r (hrules hr))
    fun id hid => hclear id (hids hid)
  have hsame' := hgroups Grammar.choicesNested_stands hflat (.oneOf _ _) ⟨_, rfl⟩ ⟨_, rfl⟩
    hworks (fun id hid => hbelow id (hids' hid)) fun id hid => hclear id (hids' hid)
  exact ⟨.refl hclosed, ⟨⟨_, rfl⟩, ⟨_, rfl⟩, ⟨_, rfl⟩, ⟨_, rfl⟩⟩, hworks, hbelow,
    Grammar.choicesNested_stands, hclear, hsame, hsame'⟩

end LazyGrammar

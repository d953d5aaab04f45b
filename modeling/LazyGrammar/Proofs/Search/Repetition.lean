import LazyGrammar.Proofs.Rule.Built
import LazyGrammar.Proofs.Search.Fidelity
import LazyGrammar.Proofs.Search.Trails
import LazyGrammar.Rule.Recursive

/-!
# LazyGrammar.Proofs.Search.Repetition

**Repetition is right recursion.** A repetition walks the runs of its items with a stack of its
own; the definition that it stands for is a rule that uses itself: nothing, or an item and then
the rule again. Both have the same outcomes in the same order.

Design points:

* `Repetition` and `RightRecursion` are the two constructions as they stand in a grammar, with
  the proof that they are built that way. The recursive rule may refer to itself by a self
  reference or by a copy, so all that is asked of the two references is one identity and one cell.
* The rules of the two constructions are on the trail of an item. They change nothing there
  if the item does not reach them (`outcomes_congr`), and further on they are out of sight.
* An item that takes no token stops a repetition by its own check. In the recursive rule it is
  the trail that stops it, because the rule is called again at the same position.
-/

namespace LazyGrammar

variable {τ α σ : Type}

namespace Grammar

variable {g : Grammar τ α σ} {tokens : List τ} {r r' item : Rule} {place q : Place}
  {crumbs : Crumbs} {id : RuleId} {value : α} {entered : List RuleId} {ofList : List α → α}
  {c : Nat}

/-! ### Nothing, with a value -/

/-- A rule takes no token and gives a value, and these are the rules that it enters. -/
inductive Blank (g : Grammar τ α σ) (value : α) : Rule → List RuleId → Prop
  | epsilon {r : Rule} {info : RuleInfo} (hnode : g.node? r = some ⟨info, .epsilon value⟩) :
      Blank g value r [info.id]
  | map {r nothing : Rule} {info info' : RuleInfo} {f : α → Except Fault α} {unit : α}
      (hnode : g.node? r = some ⟨info, .map nothing f⟩)
      (hnothing : g.node? nothing = some ⟨info', .epsilon unit⟩)
      (hvalue : ∀ v, f v = .ok value) : Blank g value r [info.id, info'.id]

theorem Blank.outcomes_eq (h : g.Blank value r entered) (tokens : List τ) (hnodup : entered.Nodup)
    (hclear : crumbs.Clear entered place.consumed) :
    g.outcomes tokens r place crumbs = [.success place value] := by
  cases h with
  | epsilon hnode =>
      rw [outcomes_fresh hnode hclear.head]
      rfl
  | @map nothing info info' f unit hnode hnothing hvalue =>
      have hinner : g.outcomes tokens nothing place (crumbs.enter info.id place.consumed)
          = [.success place unit] := by
        rw [outcomes_fresh hnothing (hclear.enter hnodup).head]
        rfl
      rw [outcomes_fresh hnode hclear.head]
      change (g.outcomes tokens nothing place (crumbs.enter info.id place.consumed)).flatMap _ = _
      rw [hinner, List.flatMap_singleton, Outcome.followedBy_ok _ rfl, hvalue]
      rfl

/-! ### The two constructions -/

/-- Any number of items, by a walk over their runs: nothing, or one item or more. -/
structure Repetition (g : Grammar τ α σ) (item : Rule) (ofList : List α → α) where
  rule : Rule
  info : RuleInfo
  without : Rule
  blankIds : List RuleId
  more : Rule
  moreInfo : RuleInfo
  choice : g.node? rule = some ⟨info, .oneOf without [more]⟩
  blank : g.Blank (ofList []) without blankIds
  walk : g.node? more = some ⟨moreInfo, .repetition item ofList⟩
  distinct : (info.id :: moreInfo.id :: blankIds).Nodup

/-- Any number of items, by a rule that uses itself: nothing, or an item and then the rule
again. -/
structure RightRecursion (g : Grammar τ α σ) (item : Rule) (ofList : List α → α) where
  rule : Rule
  info : RuleInfo
  cell : CellId
  weak : Bool
  body : Rule
  bodyInfo : RuleInfo
  without : Rule
  blankIds : List RuleId
  step : Rule
  stepInfo : RuleInfo
  build : List α → Except Fault α
  again : Rule
  againInfo : RuleInfo
  againWeak : Bool
  reference : g.node? rule = some ⟨info, .reference cell weak⟩
  target : g.target cell = .rule body
  choice : g.node? body = some ⟨bodyInfo, .oneOf without [step]⟩
  blank : g.Blank (ofList []) without blankIds
  sequence : g.node? step = some ⟨stepInfo, .sequence item [again] build⟩
  cons : ∀ v vs, build [v, ofList vs] = .ok (ofList (v :: vs))
  total : ∀ v w, ∃ u, build [v, w] = .ok u
  self : g.node? again = some ⟨againInfo, .reference cell againWeak⟩
  same : againInfo.id = info.id
  distinct : (info.id :: bodyInfo.id :: stepInfo.id :: blankIds).Nodup

/-- The identities of the rules that the construction consists of. -/
def Repetition.own (h : g.Repetition item ofList) : List RuleId := [h.info.id, h.moreInfo.id]

/-- The identities of all rules that the construction enters besides its items. -/
def Repetition.ids (h : g.Repetition item ofList) : List RuleId := h.own ++ h.blankIds

/-- The identities of the rules that the construction consists of. -/
def RightRecursion.own (h : g.RightRecursion item ofList) : List RuleId :=
  [h.info.id, h.bodyInfo.id, h.stepInfo.id]

/-- The identities of all rules that the construction enters besides its items. -/
def RightRecursion.ids (h : g.RightRecursion item ofList) : List RuleId := h.own ++ h.blankIds

/-- What an item gives in a run that starts at a position with a trail: further on, nothing is
on the trail. -/
def itemOutcomes (g : Grammar τ α σ) (tokens : List τ) (item : Rule) (start : Nat)
    (crumbs : Crumbs) (place : Place) : List (Outcome τ α) :=
  g.outcomes tokens item place (if place.consumed = start then crumbs else .root)

/-! ### The walk -/

theorem Repetition.outcomes_eq (h : g.Repetition item ofList) (tokens : List τ)
    (hbelow : ∀ id ∈ h.own, id ∉ g.idsBelow item)
    (hclear : crumbs.Clear h.ids place.consumed) :
    g.outcomes tokens h.rule place crumbs = .success place (ofList []) :: runs tokens
      (g.itemOutcomes tokens item place.consumed crumbs) h.moreInfo ofList [] place := by
  obtain ⟨hrule, hmore⟩ : h.info.id ∉ g.idsBelow item ∧ h.moreInfo.id ∉ g.idsBelow item := by
    simpa [own] using hbelow
  have hdistinct := h.distinct
  have hentered := hclear.enter hdistinct
  rw [outcomes_fresh h.choice hclear.head]
  simp only [Form.outcomes, List.flatMap_cons, List.flatMap_nil, List.append_nil,
    Trail.enter_crumbs]
  rw [h.blank.outcomes_eq tokens hdistinct.of_cons.of_cons hentered.tail,
    outcomes_fresh h.walk hentered.head]
  refine congrArg (Outcome.success place (ofList []) :: ·) ?_
  refine runsWithin_congr (fun q => g.outcomes_fits item q _) (fun q way => ?_) _ _ .refl
  refine outcomes_congr ?_
  rcases Nat.eq_or_lt_of_le way.consumed_le with heq | hlt
  · rw [if_pos heq.symm, ← heq]
    have hsame : g.LooksSame item place.consumed crumbs crumbs := fun _ _ => rfl
    exact (hsame.enter_left hrule).enter_left hmore
  · rw [if_neg (Nat.ne_of_gt hlt)]
    exact fun id _ => Crumbs.holds_enter_ahead _ _ id hlt

/-! ### The recursion -/

theorem flatMap_followedBy (next next' : α → Place → List (Outcome τ α))
    (os : List (Outcome τ α)) :
    (os.flatMap (Outcome.followedBy next)).flatMap (Outcome.followedBy next')
      = os.flatMap (Outcome.followedBy fun v q =>
          (next v q).flatMap (Outcome.followedBy next')) := by
  rw [List.flatMap_assoc]
  refine List.flatMap_congr fun o _ => ?_
  cases hresult : o.result with
  | ok v => rw [Outcome.followedBy_ok _ hresult, Outcome.followedBy_ok _ hresult]
  | error e =>
      rw [Outcome.followedBy_error _ hresult, Outcome.followedBy_error _ hresult]
      rfl

/-- One more value in front of all runs. -/
theorem runs_cons {build : List α → Except Fault α}
    (hcons : ∀ v vs, build [v, ofList vs] = .ok (ofList (v :: vs)))
    (attempt : Place → List (Outcome τ α)) (info : RuleInfo) (v : α) (values : List α)
    (place : Place) :
    (runs tokens attempt info ofList values place).flatMap
        (Outcome.followedBy fun w q => Outcome.ofValue q (build [v, w]))
      = runs tokens attempt info ofList (v :: values) place := by
  unfold runs
  generalize tokens.length - place.next + 1 = n
  induction n generalizing values place with
  | zero => rfl
  | succ n ih =>
      rw [runsWithin, flatMap_followedBy, runsWithin]
      refine List.flatMap_congr fun o _ => congrArg (Outcome.followedBy · o) ?_
      funext u q
      split
      · rfl
      · rw [List.flatMap_cons, ih, Outcome.followedBy_ok _ rfl, hcons]
        rfl

namespace RightRecursion

variable (h : g.RightRecursion item ofList)

/-- A reference to the recursive rule. -/
def Refers (r : Rule) : Prop :=
  ∃ info weak, g.node? r = some ⟨info, .reference h.cell weak⟩ ∧ info.id = h.info.id

theorem refers_rule : h.Refers h.rule := ⟨h.info, h.weak, h.reference, rfl⟩

theorem refers_again : h.Refers h.again := ⟨h.againInfo, h.againWeak, h.self, h.same⟩

/-- The trail inside of the recursive rule. -/
def inside (trail : Crumbs) (c : Nat) : Crumbs :=
  ((trail.enter h.info.id c).enter h.bodyInfo.id c).enter h.stepInfo.id c

variable {h} {trail : Crumbs}

/-- What a call of the recursive rule comes to. -/
theorem Refers.outcomes_eq (hr : h.Refers r) (tokens : List τ)
    (hclear : trail.Clear h.ids q.consumed) :
    g.outcomes tokens r q trail = .success q (ofList []) ::
      (g.outcomes tokens item q (h.inside trail q.consumed)).flatMap
        (Outcome.followedBy fun v q' =>
          (g.outcomes tokens h.again q' (h.inside trail q.consumed)).flatMap
            (Outcome.followedBy fun w q'' => Outcome.ofValue q'' (h.build [v, w]))) := by
  obtain ⟨info, weak, hnode, hid⟩ := hr
  have hdistinct := h.distinct
  have hentered := hclear.enter hdistinct
  have hentered' := hentered.enter hdistinct.of_cons
  have hfresh : trail.holds info.id q.consumed = false := hid ▸ hclear.head
  rw [outcomes_fresh hnode hfresh]
  simp only [Form.outcomes, h.target, hid]
  rw [outcomes_fresh h.choice hentered.head]
  simp only [Form.outcomes, List.flatMap_cons, List.flatMap_nil, List.append_nil,
    Trail.enter_crumbs]
  rw [h.blank.outcomes_eq tokens hdistinct.of_cons.of_cons.of_cons hentered'.tail,
    outcomes_fresh h.sequence hentered'.head]
  rfl

/-- A call at the same position is refused. -/
theorem again_held (h : g.RightRecursion item ofList) (trail : Crumbs)
    (hstay : place.consumed = c) :
    g.outcomes tokens h.again place (h.inside trail c) = [.circle place h.againInfo] := by
  refine outcomes_held h.self ?_
  subst hstay
  change (h.inside trail place.consumed).holds h.againInfo.id place.consumed = true
  simp [inside, Crumbs.holds_enter, h.same]

/-- **The recursive rule gives the runs of its items**, wherever it is called. -/
theorem outcomes_eq (h : g.RightRecursion item ofList) (tokens : List τ)
    (hbelow : ∀ id ∈ h.own, id ∉ g.idsBelow item) {start : Nat} {crumbs : Crumbs} (hr : h.Refers r)
    (hstart : start ≤ q.consumed) (hclear : trail.Clear h.ids q.consumed)
    (hsame : g.LooksSame item q.consumed trail (if q.consumed = start then crumbs else .root)) :
    g.outcomes tokens r q trail = .success q (ofList []) ::
      runs tokens (g.itemOutcomes tokens item start crumbs) h.againInfo ofList [] q := by
  obtain ⟨hrule, hbody, hstep⟩ : h.info.id ∉ g.idsBelow item ∧ h.bodyInfo.id ∉ g.idsBelow item ∧
      h.stepInfo.id ∉ g.idsBelow item := by simpa [own] using hbelow
  induction hleft : tokens.length - q.next using Nat.strongRecOn generalizing r q trail with
  | ind n ih =>
      subst hleft
      have hitem : g.outcomes tokens item q (h.inside trail q.consumed)
          = g.itemOutcomes tokens item start crumbs q :=
        outcomes_congr (((hsame.enter_left hrule).enter_left hbody).enter_left hstep)
      have hfits : ∀ q, ∀ o ∈ g.itemOutcomes tokens item start crumbs q,
          o.Fits (Source.ofList tokens) q := fun q => g.outcomes_fits item q _
      rw [hr.outcomes_eq tokens hclear, hitem, runs_eq hfits]
      refine congrArg (Outcome.success q (ofList []) :: ·) (followedBy_congr (hfits q) ?_)
      intro v q' way
      unfold runsAfter
      split
      · next hstay =>
        rw [again_held h trail hstay]
        rfl
      · next hahead =>
        -- an item that took a token leaves the trail of this call behind
        have hlt : q.consumed < q'.consumed := Nat.lt_of_le_of_ne way.consumed_le (Ne.symm hahead)
        have hfewer : tokens.length - q'.next < tokens.length - q.next := by
          rcases way.eq_or_lt_length with rfl | ⟨hnext, hlength⟩
          · exact absurd rfl hahead
          · omega
        have hbehind : g.LooksSame item q'.consumed (h.inside trail q.consumed)
            (if q'.consumed = start then crumbs else .root) := by
          rw [if_neg (by omega)]
          exact fun id _ => Crumbs.holds_enter_ahead _ _ id hlt
        have hclear' : (h.inside trail q.consumed).Clear h.ids q'.consumed :=
          Crumbs.clear_enter_ahead _ _ _ hlt
        rw [ih _ hfewer h.refers_again (by omega) hclear' hbehind rfl, List.flatMap_cons,
          runs_cons h.cons, Outcome.followedBy_ok _ rfl, h.cons]
        rfl

end RightRecursion

/-! ### What is below the two constructions -/

theorem Blank.reaches (h : g.Blank value r entered) (hreach : g.Reaches r r') :
    (∃ info unit, g.node? r' = some ⟨info, .epsilon unit⟩) ∨
      ∃ info nothing f, g.node? r' = some ⟨info, .map nothing f⟩ ∧ ∀ v, f v = .ok value := by
  have hleaf : ∀ {r info unit}, g.node? r = some ⟨info, .epsilon unit⟩ → g.Reaches r r' →
      ∃ info unit, g.node? r' = some ⟨info, .epsilon unit⟩ := by
    intro r info unit hnode hreach
    rcases hreach.cases_head with rfl | ⟨_, huse, -⟩
    · exact ⟨info, unit, hnode⟩
    · cases (uses_iff_mem_parts hnode nofun).1 huse
  cases h with
  | epsilon hnode => exact .inl (hleaf hnode hreach)
  | map hnode hnothing hvalue =>
      rcases hreach.cases_head with rfl | ⟨_, huse, hrest⟩
      · exact .inr ⟨_, _, _, hnode, hvalue⟩
      · cases List.mem_singleton.1 ((uses_iff_mem_parts hnode nofun).1 huse)
        exact .inl (hleaf hnothing hrest)

theorem Repetition.uses_rule (h : g.Repetition item ofList) :
    g.Uses h.rule r ↔ r = h.without ∨ r = h.more := by
  simp [uses_iff_mem_parts h.choice, Form.parts]

theorem Repetition.uses_more (h : g.Repetition item ofList) : g.Uses h.more r ↔ r = item := by
  simp [uses_iff_mem_parts h.walk, Form.parts]

theorem Repetition.reaches (h : g.Repetition item ofList) (hreach : g.Reaches h.rule r) :
    (r = h.rule ∨ r = h.more) ∨ g.Reaches h.without r ∨ g.Reaches item r := by
  have hS : ∀ r ∈ ({h.rule, h.more} : Set Rule), ∀ r', g.Uses r r' →
      r' ∈ ({h.rule, h.more} : Set Rule) ∨ r' ∈ ({h.without, item} : Set Rule) := by
    rintro r (rfl | rfl) r' huse
    · exact (h.uses_rule.1 huse).symm.imp .inr .inl
    · exact .inr (.inr (h.uses_more.1 huse))
  simpa using mem_or_exists_reaches hS (.inl rfl) hreach

theorem RightRecursion.uses_body (h : g.RightRecursion item ofList) :
    g.Uses h.body r ↔ r = h.without ∨ r = h.step := by
  simp [uses_iff_mem_parts h.choice, Form.parts]

theorem RightRecursion.uses_step (h : g.RightRecursion item ofList) :
    g.Uses h.step r ↔ r = item ∨ r = h.again := by
  simp [uses_iff_mem_parts h.sequence, Form.parts]

theorem RightRecursion.reaches (h : g.RightRecursion item ofList) (hreach : g.Reaches h.rule r) :
    (h.Refers r ∨ r = h.body ∨ r = h.step) ∨ g.Reaches h.without r ∨ g.Reaches item r := by
  have hS : ∀ r ∈ {r | h.Refers r ∨ r = h.body ∨ r = h.step}, ∀ r', g.Uses r r' →
      r' ∈ {r | h.Refers r ∨ r = h.body ∨ r = h.step} ∨ r' ∈ ({h.without, item} : Set Rule) := by
    rintro r (⟨info, weak, hnode, -⟩ | rfl | rfl) r' huse
    · have htarget := (uses_reference_iff hnode).1 huse
      cases h.target.symm.trans htarget
      exact .inl (.inr (.inl rfl))
    · rcases h.uses_body.1 huse with rfl | rfl
      · exact .inr (.inl rfl)
      · exact .inl (.inr (.inr rfl))
    · rcases h.uses_step.1 huse with rfl | rfl
      · exact .inr (.inr rfl)
      · exact .inl (.inl h.refers_again)
  simpa using mem_or_exists_reaches hS (.inl h.refers_rule) hreach

/-- The rule is there, it refers to a rule if it is a reference, and its functions never give
up. -/
def Works (g : Grammar τ α σ) (r : Rule) : Prop :=
  ∃ info form, g.node? r = some ⟨info, form⟩ ∧
    (∀ cell weak, form = .reference cell weak → ∃ r', g.target cell = .rule r') ∧ form.Total

theorem complete_and_total_iff :
    g.Complete r ∧ g.Total r ↔ ∀ r', g.Reaches r r' → g.Works r' := by
  constructor
  · rintro ⟨hcomplete, htotal⟩ r' hreach
    obtain ⟨info, form, hnode, htarget⟩ := hcomplete r' hreach
    exact ⟨info, form, hnode, htarget, htotal r' _ hreach hnode⟩
  · intro h
    constructor
    · intro r' hreach
      obtain ⟨info, form, hnode, htarget, -⟩ := h r' hreach
      exact ⟨info, form, hnode, htarget⟩
    · intro r' node hreach hnode
      obtain ⟨info, form, hnode', -, htotal⟩ := h r' hreach
      cases hnode.symm.trans hnode'
      exact htotal

theorem Blank.works (h : g.Blank value r entered) (hreach : g.Reaches r r') : g.Works r' := by
  rcases h.reaches hreach with ⟨_, _, hnode⟩ | ⟨_, _, _, hnode, hvalue⟩
  · exact ⟨_, _, hnode, nofun, trivial⟩
  · exact ⟨_, _, hnode, nofun, fun v => ⟨value, hvalue v⟩⟩

theorem Repetition.works (h : g.Repetition item ofList)
    (hitem : ∀ r, g.Reaches item r → g.Works r) (hreach : g.Reaches h.rule r) : g.Works r := by
  rcases h.reaches hreach with (rfl | rfl) | hwithout | hbelow
  · exact ⟨_, _, h.choice, nofun, trivial⟩
  · exact ⟨_, _, h.walk, nofun, trivial⟩
  · exact h.blank.works hwithout
  · exact hitem r hbelow

theorem RightRecursion.works (h : g.RightRecursion item ofList)
    (hitem : ∀ r, g.Reaches item r → g.Works r) (hreach : g.Reaches h.rule r) : g.Works r := by
  rcases h.reaches hreach with (⟨_, _, hnode, -⟩ | rfl | rfl) | hwithout | hbelow
  · refine ⟨_, _, hnode, fun cell weak heq => ?_, trivial⟩
    cases heq
    exact ⟨h.body, h.target⟩
  · exact ⟨_, _, h.choice, nofun, trivial⟩
  · refine ⟨_, _, h.sequence, nofun, fun vs hlength => ?_⟩
    match vs, hlength with
    | [v, w], _ => exact h.total v w
  · exact h.blank.works hwithout
  · exact hitem r hbelow

/-! ### The trails of calls from outside -/

theorem Blank.mem_idsBelow (h : g.Blank value r entered) (hid : id ∈ entered) :
    id ∈ g.idsBelow r := by
  cases h with
  | epsilon hnode =>
      cases List.mem_singleton.1 hid
      exact id_mem_idsBelow hnode
  | map hnode hnothing hvalue =>
      rcases List.mem_cons.1 hid with rfl | hid
      · exact id_mem_idsBelow hnode
      · cases List.mem_singleton.1 hid
        exact idsBelow_of_uses (.part hnode (List.mem_singleton_self _)) (id_mem_idsBelow hnothing)

theorem Repetition.mem_idsBelow (h : g.Repetition item ofList) (hid : id ∈ h.ids) :
    id ∈ g.idsBelow h.rule := by
  simp only [ids, own, List.mem_append, List.mem_cons, List.not_mem_nil, or_false] at hid
  rcases hid with (rfl | rfl) | hid
  · exact id_mem_idsBelow h.choice
  · exact idsBelow_of_uses (h.uses_rule.2 (.inr rfl)) (id_mem_idsBelow h.walk)
  · exact idsBelow_of_uses (h.uses_rule.2 (.inl rfl)) (h.blank.mem_idsBelow hid)

theorem RightRecursion.mem_idsBelow (h : g.RightRecursion item ofList) (hid : id ∈ h.ids) :
    id ∈ g.idsBelow h.rule := by
  simp only [ids, own, List.mem_append, List.mem_cons, List.not_mem_nil, or_false] at hid
  have hbody : g.idsBelow h.body ⊆ g.idsBelow h.rule :=
    idsBelow_of_uses (.target h.reference h.target)
  rcases hid with (rfl | rfl | rfl) | hid
  · exact id_mem_idsBelow h.reference
  · exact hbody (id_mem_idsBelow h.choice)
  · exact hbody (idsBelow_of_uses (h.uses_body.2 (.inr rfl)) (id_mem_idsBelow h.sequence))
  · exact hbody (idsBelow_of_uses (h.uses_body.2 (.inl rfl)) (h.blank.mem_idsBelow hid))

section Clear

variable (hg : g.Consistent) (walk : g.Repetition item ofList)
  (hbelow : walk.info.id ∉ g.idsBelow item)

theorem Repetition.form_eq {info : RuleInfo} {form : Form τ α}
    (hnode : g.node? walk.rule = some ⟨info, form⟩) : form = .oneOf walk.without [walk.more] := by
  cases walk.choice.symm.trans hnode
  rfl

theorem Repetition.not_blank_reaches (h : g.Blank value r entered) : ¬ g.Reaches r walk.rule := by
  intro hreach
  rcases h.reaches hreach with ⟨_, _, hnode⟩ | ⟨_, _, _, hnode, -⟩
  · cases walk.form_eq hnode
  · cases walk.form_eq hnode

include hbelow

theorem Repetition.not_item_reaches : ¬ g.Reaches item walk.rule :=
  fun hreach => hbelow ⟨_, _, hreach, walk.choice, rfl⟩

theorem Repetition.not_transGen : ¬ Relation.TransGen g.Uses walk.rule walk.rule := by
  intro hcircle
  obtain ⟨r, huse, hreach⟩ := Relation.TransGen.head'_iff.1 hcircle
  rcases walk.uses_rule.1 huse with rfl | rfl
  · exact walk.not_blank_reaches walk.blank hreach
  · rcases hreach.cases_head with heq | ⟨r, huse, hrest⟩
    · cases walk.form_eq (heq ▸ walk.walk)
    · cases walk.uses_more.1 huse
      exact walk.not_item_reaches hbelow hrest

theorem RightRecursion.not_reaches (recursion : g.RightRecursion item ofList) :
    ¬ g.Reaches recursion.rule walk.rule := by
  intro hreach
  rcases recursion.reaches hreach with (⟨_, _, hnode, -⟩ | heq | heq) | hwithout | hitem
  · cases walk.form_eq hnode
  · obtain ⟨-, hothers⟩ := Form.oneOf.inj (walk.form_eq (heq ▸ recursion.choice))
    have hmore := walk.walk
    rw [← (List.cons.inj hothers).1, recursion.sequence] at hmore
    cases congrArg Node.form (Option.some.inj hmore)
  · cases walk.form_eq (heq ▸ recursion.sequence)
  · exact walk.not_blank_reaches recursion.blank hwithout
  · exact walk.not_item_reaches hbelow hitem

include hg

/-- A trail to the repetition holds no rule of either construction. -/
theorem Repetition.clear_of_wayTo (recursion : g.RightRecursion item ofList)
    (hway : crumbs.WayTo g walk.rule) (c : Nat) :
    crumbs.Clear (walk.ids ++ recursion.ids) c := by
  intro id hid
  rw [Bool.eq_false_iff]
  intro hheld
  obtain ⟨q, node, hnode, rfl, hq⟩ := hway id c hheld
  rcases List.mem_append.1 hid with hid | hid
  · exact walk.not_transGen hbelow (hg.transGen_of_id_mem hnode (walk.mem_idsBelow hid) hq)
  · exact recursion.not_reaches walk hbelow
      (hg.transGen_of_id_mem hnode (recursion.mem_idsBelow hid) hq).to_reflTransGen

end Clear

/-! ### The operations that make them -/

/-- The operation makes a repetition. -/
theorem exists_repetition (g : Grammar τ α σ) (item : Rule) (unit : α) (ofList : List α → α) :
    ∃ h : (after (repetition item unit ofList) g).Repetition item ofList,
      h.rule = ((repetition item unit ofList).run g).1 ∧
      ∀ id ∈ h.ids, g.nextId ≤ id := by
  let g₁ := after (make .repetition (.repetition item ofList)) g
  let g₂ := after (make .epsilon (.epsilon unit)) g₁
  let g₃ := after (constant ⟨g₁.nodes.size⟩ (ofList [])) g₂
  have hmore : g₁.node? ⟨g.nodes.size⟩ = some _ := node?_place_self ..
  have hnothing : g₂.node? ⟨g₁.nodes.size⟩ = some _ := node?_place_self ..
  have hwithout : g₃.node? ⟨g₂.nodes.size⟩ = some _ := node?_place_self ..
  have hchoice : (after (repetition item unit ofList) g).node? ⟨g₃.nodes.size⟩ = some _ :=
    node?_place_self ..
  refine ⟨⟨_, _, _, _, _, _, hchoice, .map (node?_place_of_some hwithout)
    (node?_place_of_some (node?_place_of_some hnothing)) fun _ => rfl,
    node?_place_of_some (node?_place_of_some (node?_place_of_some hmore)), ?_⟩, rfl, ?_⟩
  · change [g.nextId + 3, g.nextId, g.nextId + 2, g.nextId + 1].Nodup
    simp
  · change ∀ id ∈ [g.nextId + 3, g.nextId, g.nextId + 2, g.nextId + 1], g.nextId ≤ id
    simp

/-- The right-recursive definition of any number of items. -/
def rightRecursion (item : Rule) (unit : α) (ofList : List α → α)
    (build : List α → Except Fault α) : StateM (Grammar τ α σ) Rule :=
  recursive fun self => do
    let nothing ← epsilon unit
    let without ← constant nothing (ofList [])
    let step ← sequence item [self] build
    oneOf without [step]

/-- The definition makes a right recursion. -/
theorem exists_rightRecursion (g : Grammar τ α σ) (item : Rule) (unit : α) {ofList : List α → α}
    {build : List α → Except Fault α}
    (hcons : ∀ v vs, build [v, ofList vs] = .ok (ofList (v :: vs)))
    (htotal : ∀ v w, ∃ u, build [v, w] = .ok u) :
    ∃ h : (after (rightRecursion item unit ofList build) g).RightRecursion item ofList,
      h.rule = ((rightRecursion item unit ofList build).run g).1 ∧
      ∀ id ∈ h.ids, g.nextId ≤ id := by
  let g₁ := after openRecursive g
  let g₂ := after (make .epsilon (.epsilon unit)) g₁
  let g₃ := after (constant ⟨g₁.nodes.size⟩ (ofList [])) g₂
  let g₄ := after (sequence item [⟨g.nodes.size⟩] build) g₃
  let g₅ := after (oneOf ⟨g₂.nodes.size⟩ [⟨g₃.nodes.size⟩]) g₄
  let g₆ := g₅.setCell g.cells.size (.recursive ⟨g₄.nodes.size⟩)
  have hself : g₁.node? ⟨g.nodes.size⟩ = some _ := node?_place_self ..
  have hnothing : g₂.node? ⟨g₁.nodes.size⟩ = some _ := node?_place_self ..
  have hwithout : g₃.node? ⟨g₂.nodes.size⟩ = some _ := node?_place_self ..
  have hstep : g₄.node? ⟨g₃.nodes.size⟩ = some _ := node?_place_self ..
  have hbody : g₅.node? ⟨g₄.nodes.size⟩ = some _ := node?_place_self ..
  have hrule : (after (rightRecursion item unit ofList build) g).node? ⟨g₆.nodes.size⟩ = some _ :=
    node?_place_self ..
  have hkept : ∀ {r node}, g₅.node? r = some node →
      (after (rightRecursion item unit ofList build) g).node? r = some node :=
    fun hnode => node?_place_of_some hnode
  have htarget : (after (rightRecursion item unit ofList build) g).target g.cells.size
      = .rule ⟨g₄.nodes.size⟩ := by
    have hcells : (after (rightRecursion item unit ofList build) g).cells
        = (g.cells.push .unfinished).setIfInBounds g.cells.size (.recursive ⟨g₄.nodes.size⟩) := rfl
    simp [Grammar.target, hcells, Cell.target]
  have hkept₃ : ∀ {r node}, g₃.node? r = some node → g₅.node? r = some node :=
    fun hnode => node?_place_of_some (node?_place_of_some hnode)
  refine ⟨⟨_, _, _, _, _, _, _, _, _, _, _, _, _, _, hrule, htarget, hkept hbody,
    .map (hkept (hkept₃ hwithout)) (hkept (hkept₃ (node?_place_of_some hnothing))) fun _ => rfl,
    hkept (node?_place_of_some hstep), hcons, htotal,
    hkept (hkept₃ (node?_place_of_some (node?_place_of_some hself))), rfl, ?_⟩, rfl, ?_⟩
  · change [g.nextId, g.nextId + 4, g.nextId + 3, g.nextId + 2, g.nextId + 1].Nodup
    simp
  · change ∀ id ∈ [g.nextId, g.nextId + 4, g.nextId + 3, g.nextId + 2, g.nextId + 1], g.nextId ≤ id
    simp

end Grammar

/-! ### The same streams -/

/-- The same runs, but for the rule that is blamed for an item without a token. -/
theorem runs_like {R : RuleInfo → RuleInfo → Prop} (hrefl : ∀ info, R info info)
    {info info' : RuleInfo} (hR : R info info') (tokens : List τ)
    (attempt : Place → List (Outcome τ α)) (ofList : List α → α) (values : List α)
    (place : Place) :
    List.Forall₂ (Outcome.Like R) (runs tokens attempt info ofList values place)
      (runs tokens attempt info' ofList values place) := by
  unfold runs
  generalize tokens.length - place.next + 1 = n
  induction n generalizing values place with
  | zero => exact .nil
  | succ n ih =>
      refine List.rel_flatMap (R := Eq) (List.forall₂_refl _) ?_
      rintro o _ rfl
      cases hresult : o.result with
      | error e =>
          rw [Outcome.followedBy_error _ hresult, Outcome.followedBy_error _ hresult]
          exact .cons (Outcome.like_refl hrefl _) .nil
      | ok v =>
          rw [Outcome.followedBy_ok _ hresult, Outcome.followedBy_ok _ hresult]
          split
          · exact .cons (Outcome.like_circle hR _) .nil
          · exact .cons (.ok _ _) (ih _ _)

variable {g g₀ : Grammar τ α σ}

/-- A search from outside calls a rule at a place with a trail. -/
def Grammar.Calls (g : Grammar τ α σ) (r : Rule) (place : Place) (crumbs : Crumbs) : Prop :=
  ∃ (src : Source τ) (q : Rule) (p : Place) (trace : Trace) (visited : List (Moment τ α σ))
    (seen : List (Sighting τ α)) (ended : Bool) (s : State τ α) (m : Moment τ α σ),
    Unfolds src [g] (.calling q p trace) visited seen ended s ∧ m ∈ visited ∧
      m.state.control = .call r place crumbs

/-- **Wherever a search calls a repetition, its trail is clear** of its own rules and of those of
the right recursion. -/
theorem Grammar.Calls.clear {place : Place} {crumbs : Crumbs} {item : Rule} {ofList : List α → α}
    {walk : g.Repetition item ofList} (h : g.Calls walk.rule place crumbs)
    (recursion : g.RightRecursion item ofList) (hg : g.Consistent)
    (hbelow : walk.info.id ∉ g.idsBelow item) :
    crumbs.Clear (walk.ids ++ recursion.ids) place.consumed := by
  obtain ⟨src, q, p, trace, visited, seen, ended, s, m, hunfolds, hm, hcall⟩ := h
  exact walk.clear_of_wayTo hg hbelow recursion (hunfolds.wayTo hm hcall) place.consumed

/-- **Repetition is right recursion.** For every item that does not reach the two constructions,
they give the same outcomes in the same order, at the same places, with the same lists and
failures and with the same tokens left, from every place of every input. The lists are those of
the runs of the items. An item that takes no token stops its run where it stands, and the rule
that is blamed is all that differs.

The trail is that of any call of the repetition in a search from outside; or it is made up, and
may hold whatever it likes but the rules of the constructions themselves at the position, where
they would be refused before they begin. -/
theorem repetition_is_right_recursion (tokens : List τ) {item : Rule} {ofList : List α → α}
    (walk : g.Repetition item ofList) (recursion : g.RightRecursion item ofList)
    (hstage : g₀.Stage g) (hwalk : g₀.Has walk.rule) (hrecursion : g₀.Has recursion.rule)
    (hcomplete : g.Complete item) (htotal : g.Total item)
    (hbelow : ∀ id ∈ walk.own ++ recursion.own, id ∉ g.idsBelow item)
    (place : Place) (crumbs : Crumbs)
    (hcalled : g.Consistent ∧ g.Calls walk.rule place crumbs ∨
      crumbs.Clear (walk.ids ++ recursion.ids) place.consumed) (demand : Nat) (trace : Trace) :
    ∃ (found : Array (Sighting τ α)) (t : State τ α) (found' : Array (Sighting τ α))
      (t' : State τ α),
      Settles g (Source.ofList tokens) collect found t g₀ ⟨#[], none⟩
        ⟨.call walk.rule place crumbs, [], demand, trace⟩ ∧
      Settles g (Source.ofList tokens) collect found' t' g₀ ⟨#[], none⟩
        ⟨.call recursion.rule place crumbs, [], demand, trace⟩ ∧
      found.toList.map (·.outcome) = .success place (ofList []) :: runs tokens
        (g.itemOutcomes tokens item place.consumed crumbs) walk.moreInfo ofList [] place ∧
      List.Forall₂ (Outcome.Like fun info info' =>
          info = info' ∨ info = walk.moreInfo ∧ info' = recursion.againInfo)
        (found.toList.map (·.outcome)) (found'.toList.map (·.outcome)) ∧
      found.toList.map (·.outcome.remaining tokens)
        = found'.toList.map (·.outcome.remaining tokens) := by
  have hworks := Grammar.complete_and_total_iff.1 ⟨hcomplete, htotal⟩
  obtain ⟨hcomplete, htotal⟩ := Grammar.complete_and_total_iff.2 fun _ => walk.works hworks
  obtain ⟨hcomplete', htotal'⟩ := Grammar.complete_and_total_iff.2 fun _ => recursion.works hworks
  obtain ⟨found, t, hsettles, hfound⟩ :=
    settles_outcomes tokens hstage hwalk hcomplete htotal place crumbs demand trace
  obtain ⟨found', t', hsettles', hfound'⟩ :=
    settles_outcomes tokens hstage hrecursion hcomplete' htotal' place crumbs demand trace
  rw [List.forall_mem_append] at hbelow
  have hclear : crumbs.Clear (walk.ids ++ recursion.ids) place.consumed := by
    rcases hcalled with ⟨hg, hcalls⟩ | hclear
    · exact hcalls.clear recursion hg (hbelow.1 _ (List.mem_cons_self ..))
    · exact hclear
  have hclears := List.forall_mem_append.1 hclear
  rw [walk.outcomes_eq tokens hbelow.1 hclears.1] at hfound
  have hsame : g.LooksSame item place.consumed crumbs
      (if place.consumed = place.consumed then crumbs else .root) := fun _ _ => by rw [if_pos rfl]
  rw [recursion.outcomes_eq tokens hbelow.2 recursion.refers_rule (Nat.le_refl place.consumed)
    hclears.2 hsame] at hfound'
  have hlike : List.Forall₂ (Outcome.Like fun info info' =>
      info = info' ∨ info = walk.moreInfo ∧ info' = recursion.againInfo)
      (found.toList.map (·.outcome)) (found'.toList.map (·.outcome)) := by
    rw [hfound, hfound']
    exact .cons (.ok _ _) (runs_like (fun _ => .inl rfl) (.inr ⟨rfl, rfl⟩) tokens _ ofList [] place)
  have hremaining := remaining_eq_of_like hlike tokens
  rw [List.map_map, List.map_map] at hremaining
  exact ⟨found, t, found', t', hsettles, hsettles', hfound, hlike, hremaining⟩

/-- Any number of digits, each of which may be left out, by a repetition and by a right
recursion. -/
def Grammar.digits : Grammar Char (List Nat) Unit :=
  Grammar.after (do
    let digit ← Grammar.select fun c =>
      .ok (if c.isDigit then some [c.toNat - '0'.toNat] else none)
    let nothing ← Grammar.epsilon []
    let item ← Grammar.oneOf digit [nothing]
    let _ ← Grammar.repetition item [] List.flatten
    Grammar.rightRecursion item [] List.flatten fun vs => .ok vs.flatten) .empty

namespace Grammar

def digitsRepetition : digits.Repetition ⟨2⟩ List.flatten where
  rule := ⟨6⟩
  info := ⟨6, .oneOf, none⟩
  without := ⟨5⟩
  blankIds := [5, 4]
  more := ⟨3⟩
  moreInfo := ⟨3, .repetition, none⟩
  choice := rfl
  blank :=
    have hwithout : digits.node? ⟨5⟩ = some ⟨⟨5, .map, none⟩, .map ⟨4⟩ fun _ => .ok []⟩ := rfl
    have hnothing : digits.node? ⟨4⟩ = some ⟨⟨4, .epsilon, none⟩, .epsilon []⟩ := rfl
    .map hwithout hnothing fun _ => rfl
  walk := rfl
  distinct := by decide

def digitsRecursion : digits.RightRecursion ⟨2⟩ List.flatten where
  rule := ⟨12⟩
  info := ⟨7, .recursive, none⟩
  cell := 0
  weak := false
  body := ⟨11⟩
  bodyInfo := ⟨11, .oneOf, none⟩
  without := ⟨9⟩
  blankIds := [9, 8]
  step := ⟨10⟩
  stepInfo := ⟨10, .sequence, none⟩
  build vs := .ok vs.flatten
  again := ⟨7⟩
  againInfo := ⟨7, .recursive, none⟩
  againWeak := true
  reference := rfl
  target := rfl
  choice := rfl
  blank :=
    have hwithout : digits.node? ⟨9⟩ = some ⟨⟨9, .map, none⟩, .map ⟨8⟩ fun _ => .ok []⟩ := rfl
    have hnothing : digits.node? ⟨8⟩ = some ⟨⟨8, .epsilon, none⟩, .epsilon []⟩ := rfl
    .map hwithout hnothing fun _ => rfl
  sequence := rfl
  cons v vs := by simp
  total v w := ⟨_, rfl⟩
  self := rfl
  same := rfl
  distinct := by decide

theorem digits_below {r : Rule} (hreach : digits.Reaches ⟨2⟩ r) :
    r = ⟨0⟩ ∨ r = ⟨1⟩ ∨ r = ⟨2⟩ := by
  have hdigit : digits.node? ⟨0⟩ = some ⟨⟨0, .select, none⟩, .terminal _⟩ := rfl
  have hnothing : digits.node? ⟨1⟩ = some ⟨⟨1, .epsilon, none⟩, .epsilon []⟩ := rfl
  have hitem : digits.node? ⟨2⟩ = some ⟨⟨2, .oneOf, none⟩, .oneOf ⟨0⟩ [⟨1⟩]⟩ := rfl
  have hS : ∀ r ∈ ({⟨0⟩, ⟨1⟩, ⟨2⟩} : Set Rule), ∀ r', digits.Uses r r' →
      r' ∈ ({⟨0⟩, ⟨1⟩, ⟨2⟩} : Set Rule) ∨ r' ∈ (∅ : Set Rule) := by
    rintro r (rfl | rfl | rfl) r' huse
    · cases (uses_iff_mem_parts hdigit nofun).1 huse
    · cases (uses_iff_mem_parts hnothing nofun).1 huse
    · have hpart := (uses_iff_mem_parts hitem nofun).1 huse
      simp only [Form.parts, List.mem_cons, List.not_mem_nil, or_false] at hpart
      exact .inl (hpart.imp_right .inl)
  simpa using mem_or_exists_reaches hS (.inr (.inr rfl)) hreach

theorem digits_works : digits.Complete ⟨2⟩ ∧ digits.Total ⟨2⟩ := by
  refine complete_and_total_iff.2 fun r hreach => ?_
  rcases digits_below hreach with rfl | rfl | rfl
  · exact ⟨_, _, rfl, nofun, fun t => ⟨_, rfl⟩⟩
  · exact ⟨_, _, rfl, nofun, trivial⟩
  · exact ⟨_, _, rfl, nofun, trivial⟩

theorem digits_idsBelow :
    ∀ id ∈ digitsRepetition.own ++ digitsRecursion.own, id ∉ digits.idsBelow ⟨2⟩ := by
  rintro id hid ⟨r, node, hreach, hnode, rfl⟩
  rcases digits_below hreach with rfl | rfl | rfl <;>
  · cases hnode
    revert hid
    decide

end Grammar

/-- A digit that is left out stops both. -/
theorem digits_repetition_is_right_recursion :
    Grammar.digits.Stage Grammar.digits ∧ Grammar.digits.Has ⟨6⟩ ∧ Grammar.digits.Has ⟨12⟩ ∧
    Grammar.digits.Complete ⟨2⟩ ∧ Grammar.digits.Total ⟨2⟩ ∧
    (∀ id ∈ Grammar.digitsRepetition.own ++ Grammar.digitsRecursion.own,
      id ∉ Grammar.digits.idsBelow ⟨2⟩) ∧
    ((Crumbs.root.enter 20 3).enter 0 4).Clear
      (Grammar.digitsRepetition.ids ++ Grammar.digitsRecursion.ids) 5 ∧
    ∃ (found : Array (Sighting Char (List Nat))) (t : State Char (List Nat))
      (found' : Array (Sighting Char (List Nat))) (t' : State Char (List Nat)),
      Settles Grammar.digits (Source.ofList ['1', 'x']) collect found t Grammar.digits
        ⟨#[], none⟩ ⟨.call ⟨6⟩ ⟨5, 0⟩ ((Crumbs.root.enter 20 3).enter 0 4), [], 1, .silent⟩ ∧
      Settles Grammar.digits (Source.ofList ['1', 'x']) collect found' t' Grammar.digits
        ⟨#[], none⟩ ⟨.call ⟨12⟩ ⟨5, 0⟩ ((Crumbs.root.enter 20 3).enter 0 4), [], 1, .silent⟩ ∧
      found.toList.map (·.outcome) = [.success ⟨5, 0⟩ [], .success ⟨6, 1⟩ [1],
        .failure ⟨6, .unexpected 'x'⟩ 1, .circle ⟨6, 1⟩ ⟨3, .repetition, none⟩,
        .circle ⟨5, 0⟩ ⟨3, .repetition, none⟩] ∧
      List.Forall₂ (Outcome.Like fun info info' =>
          info = info' ∨ info = ⟨3, .repetition, none⟩ ∧ info' = ⟨7, .recursive, none⟩)
        (found.toList.map (·.outcome)) (found'.toList.map (·.outcome)) ∧
      found.toList.map (·.outcome.remaining ['1', 'x'])
        = found'.toList.map (·.outcome.remaining ['1', 'x']) := by
  have hclosed : Grammar.digits.Closed := Grammar.closed_of_all rfl rfl
  have hclear : ((Crumbs.root.enter 20 3).enter 0 4).Clear
      (Grammar.digitsRepetition.ids ++ Grammar.digitsRecursion.ids) 5 := by
    unfold Crumbs.Clear
    decide
  obtain ⟨hcomplete, htotal⟩ := Grammar.digits_works
  obtain ⟨found, t, found', t', hsettles, hsettles', hfound, hlike, hremaining⟩ :=
    repetition_is_right_recursion ['1', 'x'] Grammar.digitsRepetition Grammar.digitsRecursion
      (.refl hclosed) ⟨_, rfl⟩ ⟨_, rfl⟩ hcomplete htotal Grammar.digits_idsBelow ⟨5, 0⟩
      ((Crumbs.root.enter 20 3).enter 0 4) (.inr hclear) 1 .silent
  exact ⟨.refl hclosed, ⟨_, rfl⟩, ⟨_, rfl⟩, hcomplete, htotal, Grammar.digits_idsBelow, hclear,
    found, t, found', t', hsettles, hsettles', hfound.trans rfl, hlike, hremaining⟩

end LazyGrammar

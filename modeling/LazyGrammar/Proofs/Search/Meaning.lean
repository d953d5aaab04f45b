import LazyGrammar.Proofs.Rule.Reach
import LazyGrammar.Proofs.Search.Way
import LazyGrammar.Search.Machine

/-!
# LazyGrammar.Proofs.Search.Meaning

**The meaning of a rule**: the list of all its outcomes at a place, with a trail. It is
given by one recursion over rules, without streams, tails or frames.

Design points:

* `outcomesOnce` is the recursion, one call deep. Rules go round in circles, so the
  recursion is not one over any structure; `outcomes` iterates it often enough
  (`outcomes_eq`), and nothing else solves it (`eq_outcomes`).
* What makes the recursion end is the **height** of a call: the tokens that are left
  and, at one position, the rules that are not on the trail yet.
* A `Trail` only has to remember what it is asked at the position where a rule is
  entered. `Crumbs` do so even if their positions are in no order, and `Path` is the
  plain list of entries.
-/

namespace LazyGrammar

variable {τ α σ κ : Type}

/-! ### Trails -/

/-- Records of the rules that were entered on the way to a call. -/
class Trail (κ : Type) where
  /-- Whether a rule is on the trail with a position. -/
  holds : κ → RuleId → Nat → Bool
  /-- The trail after entering one more rule. -/
  enter : κ → RuleId → Nat → κ
  /-- At the position where a rule is entered, it joins those already there. -/
  holds_enter : ∀ (trail : κ) (id id' : RuleId) (c : Nat),
    holds (enter trail id c) id' c = (decide (id' = id) || holds trail id' c)

/-- A trail in plain view: its entries, the latest first. -/
abbrev Path := List (RuleId × Nat)

instance : Trail Path where
  holds path id c := decide ((id, c) ∈ path)
  enter path id c := (id, c) :: path
  holds_enter path id id' c := by
    simp only [List.mem_cons, Prod.mk.injEq, and_true, Bool.decide_or]

instance : Trail Crumbs where
  holds crumbs id c := crumbs.holds id c
  enter crumbs id c := crumbs.enter id c
  holds_enter crumbs id id' c := by
    simp only [Crumbs.enter, Crumbs.holds, Nat.lt_irrefl, if_false, and_true]
    by_cases h : id = id'
    · subst h
      simp
    · rw [if_neg h, decide_eq_false (Ne.symm h), Bool.false_or]

@[simp] theorem Trail.holds_path (path : Path) (id : RuleId) (c : Nat) :
    Trail.holds path id c = decide ((id, c) ∈ path) := rfl

@[simp] theorem Trail.enter_path (path : Path) (id : RuleId) (c : Nat) :
    Trail.enter path id c = (id, c) :: path := rfl

@[simp] theorem Trail.holds_crumbs (crumbs : Crumbs) (id : RuleId) (c : Nat) :
    Trail.holds crumbs id c = crumbs.holds id c := rfl

@[simp] theorem Trail.enter_crumbs (crumbs : Crumbs) (id : RuleId) (c : Nat) :
    Trail.enter crumbs id c = crumbs.enter id c := rfl

/-! ### The recursion -/

namespace Outcome

/-- What comes of an outcome if something else goes on from its success. A failure
stays. -/
def followedBy (next : α → Place → List (Outcome τ α)) (o : Outcome τ α) :
    List (Outcome τ α) :=
  match o.result with
  | .ok v => next v o.place
  | .error e => [.failure e o.place.next]

theorem followedBy_ok {o : Outcome τ α} {v : α} (next : α → Place → List (Outcome τ α))
    (h : o.result = .ok v) : o.followedBy next = next v o.place := by
  rw [followedBy, h]

theorem followedBy_error {o : Outcome τ α} {e : ParseError τ}
    (next : α → Place → List (Outcome τ α)) (h : o.result = .error e) :
    o.followedBy next = [.failure e o.place.next] := by
  rw [followedBy, h]

/-- The success with a value, unless the function that should give it gives up. -/
def ofValue (place : Place) : Except Fault α → List (Outcome τ α)
  | .ok v => [.success place v]
  | .error _ => []

end Outcome

/-- The outcomes of the rest of a sequence, after some values. -/
def sequenceOutcomes (use : Rule → Place → List (Outcome τ α))
    (build : List α → Except Fault α) : List Rule → List α → Place → List (Outcome τ α)
  | [], values, place => Outcome.ofValue place (build values)
  | rule :: rules, values, place =>
    (use rule place).flatMap (Outcome.followedBy fun v q =>
      sequenceOutcomes use build rules (values ++ [v]) q)

/-- The runs that go on from a place after some values, with at most `n` more items: each
run comes before the longer ones that start with it. -/
def runsWithin (attempt : Place → List (Outcome τ α)) (info : RuleInfo) (collect : List α → α) :
    Nat → List α → Place → List (Outcome τ α)
  | 0, _, _ => []
  | n + 1, values, place =>
    (attempt place).flatMap (Outcome.followedBy fun v q =>
      if q.consumed = place.consumed then [.circle q info]
      else
        .success q (collect (values ++ [v])) ::
          runsWithin attempt info collect n (values ++ [v]) q)

/-- The runs that go on from a place after some values. Every item takes a token. -/
def runs (tokens : List τ) (attempt : Place → List (Outcome τ α)) (info : RuleInfo)
    (collect : List α → α) (values : List α) (place : Place) : List (Outcome τ α) :=
  runsWithin attempt info collect (tokens.length - place.next + 1) values place

/-- What comes of one more item after some values, tried at position `start`: a failure if it
takes no token, otherwise a run and the longer ones. -/
def runsAfter (tokens : List τ) (attempt : Place → List (Outcome τ α)) (info : RuleInfo)
    (collect : List α → α) (values : List α) (start : Nat) (v : α) (q : Place) :
    List (Outcome τ α) :=
  if q.consumed = start then [.circle q info]
  else
    .success q (collect (values ++ [v])) :: runs tokens attempt info collect (values ++ [v]) q

/-- The outcomes of a form, given those of its parts. -/
def Form.outcomes (g : Grammar τ α σ) (tokens : List τ) (info : RuleInfo)
    (use : Rule → Place → List (Outcome τ α)) (place : Place) :
    Form τ α → List (Outcome τ α)
  | .terminal accept =>
    match tokens[place.next]? with
    | none => [.failure ⟨place.consumed, .unexpectedEnd⟩ place.next]
    | some t =>
      match accept t with
      | .ok (some v) => [.success place.advance v]
      | .ok none => [.failure ⟨place.consumed, .unexpected t⟩ place.next]
      | .error _ => []
  | .epsilon value => [.success place value]
  | .endOfInput value =>
    match tokens[place.next]? with
    | none => [.success place value]
    | some t => [.failure ⟨place.consumed, .expectedEnd t⟩ place.next]
  | .map inner f =>
    (use inner place).flatMap (Outcome.followedBy fun v q => Outcome.ofValue q (f v))
  | .repetition item collect => runs tokens (use item) info collect [] place
  | .reference cell _ =>
    match g.target cell with
    | .rule r => use r place
    | _ => []
  | .oneOf first others => (first :: others).flatMap fun r => use r place
  | .sequence first others build => sequenceOutcomes use build (first :: others) [] place

namespace Grammar

variable [Trail κ]

/-- The outcomes of a rule, given those of the rules that it calls: a rule that is on the
trail at this position fails, any other joins the trail. -/
def outcomesOnce (g : Grammar τ α σ) (tokens : List τ)
    (use : Rule → Place → κ → List (Outcome τ α)) (r : Rule) (place : Place) (trail : κ) :
    List (Outcome τ α) :=
  match g.node? r with
  | none => []
  | some ⟨info, form⟩ =>
    if Trail.holds trail info.id place.consumed then [.circle place info]
    else
      form.outcomes g tokens info
        (fun r' q => use r' q (Trail.enter trail info.id place.consumed)) place

/-- The outcomes of a rule that need at most `n` calls one inside the other. -/
def outcomesWithin (g : Grammar τ α σ) (tokens : List τ) :
    Nat → Rule → Place → κ → List (Outcome τ α)
  | 0, _, _, _ => []
  | n + 1, r, place, trail => g.outcomesOnce tokens (g.outcomesWithin tokens n) r place trail

/-- The outcomes of a rule at a place, with a trail. -/
def outcomes (g : Grammar τ α σ) (tokens : List τ) (r : Rule) (place : Place) (trail : κ) :
    List (Outcome τ α) :=
  g.outcomesWithin tokens ((tokens.length - place.next + 1) * (g.nodes.size + 1)) r place trail

end Grammar

variable {g : Grammar τ α σ} {tokens : List τ} {src : Source τ} {p q place : Place}
  {use use' : Rule → Place → List (Outcome τ α)} {attempt attempt' : Place → List (Outcome τ α)}
  {info : RuleInfo} {collect : List α → α} {values : List α}

/-! ### Outcomes fit -/

theorem fits_followedBy {next : α → Place → List (Outcome τ α)} {os : List (Outcome τ α)}
    (hos : ∀ o ∈ os, o.Fits src p)
    (hnext : ∀ v q, src.Leads p q → ∀ o ∈ next v q, o.Fits src q) :
    ∀ o ∈ os.flatMap (Outcome.followedBy next), o.Fits src p := by
  intro o' ho'
  obtain ⟨o, ho, hfrom⟩ := List.mem_flatMap.1 ho'
  have hfits := hos o ho
  unfold Outcome.followedBy at hfrom
  split at hfrom
  · exact (hnext _ _ hfits.way o' hfrom).of_leads hfits.way
  · next e herror =>
    cases List.mem_singleton.1 hfrom
    exact hfits.failure herror

theorem fits_ofValue (place : Place) (value : Except Fault α) :
    ∀ o ∈ (Outcome.ofValue place value : List (Outcome τ α)), o.Fits src place := by
  intro o ho
  cases value with
  | ok v =>
      cases List.mem_singleton.1 ho
      exact Outcome.fits_success .refl v
  | error f => cases ho

/-- What goes on from a place only matters at places that lie ahead. -/
theorem followedBy_congr {next next' : α → Place → List (Outcome τ α)} {os : List (Outcome τ α)}
    (hos : ∀ o ∈ os, o.Fits src p) (hnext : ∀ v q, src.Leads p q → next v q = next' v q) :
    os.flatMap (Outcome.followedBy next) = os.flatMap (Outcome.followedBy next') := by
  refine List.flatMap_congr fun o ho => ?_
  unfold Outcome.followedBy
  split
  · exact hnext _ _ (hos o ho).way
  · rfl

theorem sequenceOutcomes_fits (huse : ∀ r q, ∀ o ∈ use r q, o.Fits src q)
    (build : List α → Except Fault α) (rules : List Rule) (values : List α) (place : Place) :
    ∀ o ∈ sequenceOutcomes use build rules values place, o.Fits src place := by
  induction rules generalizing values place with
  | nil => exact fits_ofValue place _
  | cons rule rules ih => exact fits_followedBy (huse rule place) fun v q _ => ih _ q

theorem sequenceOutcomes_congr (huse : ∀ r q, ∀ o ∈ use r q, o.Fits src q)
    (build : List α → Except Fault α) (rules : List Rule)
    (heq : ∀ r ∈ rules, ∀ q, src.Leads p q → use r q = use' r q) (values : List α)
    (way : src.Leads p place) :
    sequenceOutcomes use build rules values place
      = sequenceOutcomes use' build rules values place := by
  induction rules generalizing values place with
  | nil => rfl
  | cons rule rules ih =>
      obtain ⟨hfirst, hrest⟩ := List.forall_mem_cons.1 heq
      simp only [sequenceOutcomes, ← hfirst place way]
      exact followedBy_congr (huse rule place) fun v q way' => ih hrest _ (way.trans way')

theorem runsWithin_fits (hattempt : ∀ q, ∀ o ∈ attempt q, o.Fits src q) (n : Nat)
    (values : List α) (place : Place) :
    ∀ o ∈ runsWithin attempt info collect n values place, o.Fits src place := by
  induction n generalizing values place with
  | zero => exact fun o ho => nomatch ho
  | succ n ih =>
      refine fits_followedBy (hattempt place) fun v q _ o ho => ?_
      split at ho
      · cases List.mem_singleton.1 ho
        exact Outcome.fits_circle .refl info
      · rcases List.mem_cons.1 ho with rfl | ho
        · exact Outcome.fits_success .refl _
        · exact ih _ q o ho

theorem runsWithin_congr (hattempt : ∀ q, ∀ o ∈ attempt q, o.Fits src q)
    (heq : ∀ q, src.Leads p q → attempt q = attempt' q) (n : Nat) (values : List α)
    (way : src.Leads p place) :
    runsWithin attempt info collect n values place
      = runsWithin attempt' info collect n values place := by
  induction n generalizing values place with
  | zero => rfl
  | succ n ih =>
      simp only [runsWithin, ← heq place way]
      refine followedBy_congr (hattempt place) fun v q way' => ?_
      rw [ih _ (way.trans way')]

/-- As many items as there are tokens left are enough. -/
theorem runsWithin_stable (hattempt : ∀ q, ∀ o ∈ attempt q, o.Fits (Source.ofList tokens) q)
    {m n : Nat} (hm : tokens.length - place.next < m) (hn : tokens.length - place.next < n)
    (values : List α) :
    runsWithin attempt info collect m values place
      = runsWithin attempt info collect n values place := by
  induction m generalizing n values place with
  | zero => exact absurd hm (Nat.not_lt_zero _)
  | succ m ih =>
      obtain ⟨n, rfl⟩ : ∃ k, n = k + 1 := ⟨n - 1, by omega⟩
      refine followedBy_congr (hattempt place) fun v q way => ?_
      split
      · rfl
      · -- an item that took a token leaves fewer of them for the next one
        next hahead =>
        rcases way.eq_or_lt_length with rfl | ⟨hlt, hlen⟩
        · exact absurd rfl hahead
        · rw [ih (n := n) (by omega) (by omega)]

/-- **Runs in terms of longer runs.** -/
theorem runs_eq (hattempt : ∀ q, ∀ o ∈ attempt q, o.Fits (Source.ofList tokens) q)
    (values : List α) (place : Place) :
    runs tokens attempt info collect values place =
      (attempt place).flatMap (Outcome.followedBy
        (runsAfter tokens attempt info collect values place.consumed)) := by
  refine followedBy_congr (hattempt place) fun v q way => ?_
  unfold runsAfter
  split
  · rfl
  · next hahead =>
    rcases way.eq_or_lt_length with rfl | ⟨hlt, hlen⟩
    · exact absurd rfl hahead
    · rw [runs, runsWithin_stable hattempt (by omega) (Nat.lt_succ_self _)]

theorem Form.outcomes_fits (huse : ∀ r q, ∀ o ∈ use r q, o.Fits (Source.ofList tokens) q)
    (place : Place) (form : Form τ α) :
    ∀ o ∈ form.outcomes g tokens info use place, o.Fits (Source.ofList tokens) place := by
  cases form with
  | terminal accept =>
      intro o ho
      simp only [Form.outcomes, ← Source.token_ofList] at ho
      split at ho
      · next hnone =>
        cases List.mem_singleton.1 ho
        exact Outcome.fits_failure .refl ⟨rfl, hnone⟩
      · next t hsome =>
        split at ho
        · cases List.mem_singleton.1 ho
          exact Outcome.fits_success (.advance .refl hsome) _
        · cases List.mem_singleton.1 ho
          exact Outcome.fits_failure .refl ⟨rfl, hsome⟩
        · cases ho
  | epsilon value =>
      intro o ho
      cases List.mem_singleton.1 ho
      exact Outcome.fits_success .refl value
  | endOfInput value =>
      intro o ho
      simp only [Form.outcomes, ← Source.token_ofList] at ho
      split at ho
      · cases List.mem_singleton.1 ho
        exact Outcome.fits_success .refl value
      · next t hsome =>
        cases List.mem_singleton.1 ho
        exact Outcome.fits_failure .refl ⟨rfl, hsome⟩
  | map inner f => exact fits_followedBy (huse inner place) fun v q _ => fits_ofValue q (f v)
  | repetition item collect => exact runsWithin_fits (huse item) _ _ place
  | reference cell weak =>
      simp only [Form.outcomes]
      split
      · exact huse _ place
      · exact fun o ho => nomatch ho
  | oneOf first others =>
      intro o ho
      obtain ⟨r, -, ho⟩ := List.mem_flatMap.1 ho
      exact huse r place o ho
  | sequence first others build => exact sequenceOutcomes_fits huse build _ _ place

/-- The outcomes of a rule's form only depend on what the rules that it uses do ahead of the
place. -/
theorem Form.outcomes_congr {r : Rule} {form : Form τ α} (hnode : g.node? r = some ⟨info, form⟩)
    (huse : ∀ r' q, ∀ o ∈ use r' q, o.Fits (Source.ofList tokens) q)
    (heq : ∀ r' q, g.Uses r r' → (Source.ofList tokens).Leads place q → use r' q = use' r' q) :
    form.outcomes g tokens info use place = form.outcomes g tokens info use' place := by
  have hpart : ∀ r' ∈ form.parts, ∀ q, (Source.ofList tokens).Leads place q →
      use r' q = use' r' q := fun r' hr' q way => heq r' q (.part hnode hr') way
  cases form with
  | terminal accept => rfl
  | epsilon value => rfl
  | endOfInput value => rfl
  | map inner f => simp only [Form.outcomes, ← hpart inner (List.mem_singleton_self _) place .refl]
  | repetition item collect =>
      exact runsWithin_congr (huse item) (hpart item (List.mem_singleton_self _)) _ _ .refl
  | reference cell weak =>
      simp only [Form.outcomes]
      split
      · next htarget => exact heq _ place (.target hnode htarget) .refl
      · rfl
  | oneOf first others => exact List.flatMap_congr fun r' hr' => hpart r' hr' place .refl
  | sequence first others build => exact sequenceOutcomes_congr huse build _ hpart _ .refl

namespace Grammar

variable [Trail κ] {r : Rule} {trail : κ}

theorem outcomesOnce_fits {use : Rule → Place → κ → List (Outcome τ α)}
    (huse : ∀ r q trail, ∀ o ∈ use r q trail, o.Fits (Source.ofList tokens) q) (r : Rule)
    (place : Place) (trail : κ) :
    ∀ o ∈ g.outcomesOnce tokens use r place trail, o.Fits (Source.ofList tokens) place := by
  intro o ho
  unfold outcomesOnce at ho
  split at ho
  · cases ho
  · next info form _ =>
    split at ho
    · cases List.mem_singleton.1 ho
      exact Outcome.fits_circle .refl info
    · exact Form.outcomes_fits (fun r q => huse r q _) place form o ho

theorem outcomesWithin_fits (n : Nat) (r : Rule) (place : Place) (trail : κ) :
    ∀ o ∈ g.outcomesWithin tokens n r place trail, o.Fits (Source.ofList tokens) place := by
  induction n generalizing r place trail with
  | zero => exact fun o ho => nomatch ho
  | succ n ih => exact outcomesOnce_fits ih r place trail

theorem outcomes_fits (r : Rule) (place : Place) (trail : κ) :
    ∀ o ∈ g.outcomes tokens r place trail, o.Fits (Source.ofList tokens) place :=
  outcomesWithin_fits _ r place trail

/-! ### Height -/

/-- How many calls one inside the other a call can lead to: at each position, each rule may
be entered once more that is not on the trail there. -/
def height (g : Grammar τ α σ) (tokens : List τ) (place : Place) (trail : κ) : Nat :=
  (tokens.length - place.next) * (g.nodes.size + 1) +
    (g.ids.filter fun id => Trail.holds trail id place.consumed = false).card

/-- A call from within an entered rule is lower. -/
theorem height_lt {node : Node τ α} (hnode : g.node? r = some node)
    (hfresh : Trail.holds trail node.info.id place.consumed = false)
    (way : (Source.ofList tokens).Leads place q) :
    g.height tokens q (Trail.enter trail node.info.id place.consumed)
      < g.height tokens place trail := by
  unfold height
  rcases way.eq_or_lt_length with rfl | ⟨hlt, hlen⟩
  · -- at the same position, the rule is one that was not on the trail and is now
    refine Nat.add_lt_add_left (Finset.card_lt_card ?_) _
    refine Finset.ssubset_iff_subset_ne.2 ⟨?_, ?_⟩
    · intro id hid
      rw [Finset.mem_filter, Trail.holds_enter, Bool.or_eq_false_iff] at hid
      exact Finset.mem_filter.2 ⟨hid.1, hid.2.2⟩
    · intro heq
      have hmem : node.info.id ∈ g.ids.filter fun id => Trail.holds trail id q.consumed = false :=
        Finset.mem_filter.2 ⟨id_mem_ids hnode, hfresh⟩
      rw [← heq, Finset.mem_filter, Trail.holds_enter, decide_eq_true rfl, Bool.true_or] at hmem
      exact Bool.noConfusion hmem.2
  · -- further on every rule may be entered again, but there are fewer tokens
    have hcard := (Finset.card_filter_le g.ids fun id =>
      Trail.holds (Trail.enter trail node.info.id place.consumed) id q.consumed = false).trans
        g.card_ids_le
    have hleft : (tokens.length - q.next) * (g.nodes.size + 1) + (g.nodes.size + 1)
        ≤ (tokens.length - place.next) * (g.nodes.size + 1) := by
      rw [← Nat.succ_mul]
      exact Nat.mul_le_mul_right _ (by omega)
    omega

theorem height_lt_enough (g : Grammar τ α σ) (tokens : List τ) (place : Place) (trail : κ) :
    g.height tokens place trail < (tokens.length - place.next + 1) * (g.nodes.size + 1) := by
  have hcard := (Finset.card_filter_le g.ids fun id =>
    Trail.holds trail id place.consumed = false).trans g.card_ids_le
  rw [height, Nat.succ_mul]
  omega

/-- The outcomes of a call only depend on those of lower calls. -/
theorem outcomesOnce_congr {use use' : Rule → Place → κ → List (Outcome τ α)}
    (huse : ∀ r q trail, ∀ o ∈ use r q trail, o.Fits (Source.ofList tokens) q)
    (heq : ∀ r q trail', g.height tokens q trail' < g.height tokens place trail →
      use r q trail' = use' r q trail') :
    g.outcomesOnce tokens use r place trail = g.outcomesOnce tokens use' r place trail := by
  unfold outcomesOnce
  split
  · rfl
  · next info form hnode =>
    split
    · rfl
    · next hfresh =>
      refine Form.outcomes_congr hnode (fun r q => huse r q _) fun r' q _ way => ?_
      exact heq r' q _ (height_lt hnode (Bool.not_eq_true _ ▸ hfresh) way)

theorem outcomesWithin_stable {m n : Nat} (hm : g.height tokens place trail < m)
    (hn : g.height tokens place trail < n) :
    g.outcomesWithin tokens m r place trail = g.outcomesWithin tokens n r place trail := by
  induction m generalizing n r place trail with
  | zero => exact absurd hm (Nat.not_lt_zero _)
  | succ m ih =>
      obtain ⟨n, rfl⟩ : ∃ k, n = k + 1 := ⟨n - 1, by omega⟩
      refine outcomesOnce_congr (outcomesWithin_fits m) fun r' q trail' hlt => ?_
      exact ih (by omega) (by omega)

/-- **The outcomes of a rule solve the recursion.** -/
theorem outcomes_eq (g : Grammar τ α σ) (tokens : List τ) (r : Rule) (place : Place) (trail : κ) :
    g.outcomes tokens r place trail
      = g.outcomesOnce tokens (g.outcomes tokens) r place trail := by
  have henough := g.height_lt_enough tokens place trail
  calc g.outcomes tokens r place trail
      = g.outcomesWithin tokens (g.height tokens place trail + 1) r place trail :=
        outcomesWithin_stable henough (Nat.lt_succ_self _)
    _ = g.outcomesOnce tokens (g.outcomes tokens) r place trail := by
        refine outcomesOnce_congr (outcomesWithin_fits _) fun r' q trail' hlt => ?_
        exact outcomesWithin_stable hlt (g.height_lt_enough tokens q trail')

/-- A rule that has been entered at this position is refused. -/
theorem outcomes_held {node : Node τ α} (hnode : g.node? r = some node)
    (hheld : Trail.holds trail node.info.id place.consumed = true) :
    g.outcomes tokens r place trail = [.circle place node.info] := by
  rw [g.outcomes_eq, outcomesOnce, hnode]
  exact if_pos hheld

/-- A rule that has not been entered at this position has the outcomes of its form. -/
theorem outcomes_fresh {node : Node τ α} (hnode : g.node? r = some node)
    (hfresh : Trail.holds trail node.info.id place.consumed = false) :
    g.outcomes tokens r place trail = node.form.outcomes g tokens node.info
      (fun r' q => g.outcomes tokens r' q (Trail.enter trail node.info.id place.consumed))
      place := by
  rw [g.outcomes_eq, outcomesOnce, hnode]
  exact if_neg (Bool.not_eq_true _ ▸ hfresh)

/-- **Nothing else solves the recursion.** -/
theorem eq_outcomes {S : Rule → Place → κ → List (Outcome τ α)}
    (hS : ∀ r place trail, S r place trail = g.outcomesOnce tokens S r place trail) (r : Rule)
    (place : Place) (trail : κ) : S r place trail = g.outcomes tokens r place trail := by
  induction h : g.height tokens place trail using Nat.strongRecOn
    generalizing r place trail with
  | ind n ih =>
      subst h
      rw [hS, outcomes_eq]
      refine (outcomesOnce_congr outcomes_fits fun r' q trail' hlt => ?_).symm
      exact (ih _ hlt r' q trail' rfl).symm

end Grammar

end LazyGrammar

import LazyGrammar.Proofs.Search.Repetition

/-!
# LazyGrammar.Proofs.Search.Nesting

**Rules one after another, and rules in groups.** What regrouping laws have in common: how a row
of rules goes on (`rowThen`), what the rules of a construction see of the groups around them
(`Grammar.Sees`), and groups within groups (`Nesting`).

Design points:

* A row is given with what goes on from the list of its values. Rows that follow one another are
  then one row (`rowThen_append`), whatever becomes of their values.
* The groups that are entered on the way to a rule are on its trail. The rule does not see them if
  it does not reach them, and once tokens have been taken they are out of sight for any rule.
* How a group is put together differs from law to law, so it is a parameter (`Nesting.Stands`).
  That the groups add nothing that could fail is the same for all of them.
-/

namespace LazyGrammar

variable {τ α σ β : Type}

/-! ### Rules one after another -/

/-- What comes of rules one after another if something else goes on from the values of all. -/
def rowThen (use : Rule → Place → List (Outcome τ α))
    (next : List α → Place → List (Outcome τ α)) : List Rule → Place → List (Outcome τ α)
  | [], place => next [] place
  | rule :: rules, place =>
    (use rule place).flatMap (Outcome.followedBy fun v q =>
      rowThen use (fun vs => next (v :: vs)) rules q)

section Row

variable {src : Source τ} {use use' : Rule → Place → List (Outcome τ α)}
  {next next' : List α → Place → List (Outcome τ α)} {place : Place}

/-- A sequence is a row whose values are put together. -/
theorem sequenceOutcomes_eq_rowThen (use : Rule → Place → List (Outcome τ α))
    (build : List α → Except Fault α) (rules : List Rule) (values : List α) (place : Place) :
    sequenceOutcomes use build rules values place
      = rowThen use (fun vs q => Outcome.ofValue q (build (values ++ vs))) rules place := by
  induction rules generalizing values place with
  | nil => rw [sequenceOutcomes, rowThen, List.append_nil]
  | cons rule rules ih =>
      rw [sequenceOutcomes, rowThen]
      simp only [ih, List.append_assoc, List.singleton_append]

/-- **Rows are associative**, failures included. -/
theorem rowThen_append (rules rules' : List Rule) (place : Place) :
    rowThen use next (rules ++ rules') place
      = rowThen use (fun vs => rowThen use (fun ws => next (vs ++ ws)) rules') rules place := by
  induction rules generalizing next place with
  | nil => rfl
  | cons rule rules ih =>
      rw [List.cons_append, rowThen, rowThen]
      simp only [ih, List.cons_append]

theorem rowThen_flatMap (next' : α → Place → List (Outcome τ α)) (rules : List Rule)
    (place : Place) :
    (rowThen use next rules place).flatMap (Outcome.followedBy next')
      = rowThen use (fun vs q => (next vs q).flatMap (Outcome.followedBy next')) rules place := by
  induction rules generalizing next place with
  | nil => rfl
  | cons rule rules ih =>
      rw [rowThen, Grammar.flatMap_followedBy, rowThen]
      simp only [ih]

/-- What goes on only matters for as many values as there are rules, at places that lie ahead. -/
theorem rowThen_congr_next (huse : ∀ r q, ∀ o ∈ use r q, o.Fits src q) (rules : List Rule)
    (hnext : ∀ vs q, vs.length = rules.length → src.Leads place q → next vs q = next' vs q) :
    rowThen use next rules place = rowThen use next' rules place := by
  induction rules generalizing next next' place with
  | nil => exact hnext [] place rfl .refl
  | cons rule rules ih =>
      refine followedBy_congr (huse rule place) fun v q way => ?_
      exact ih fun vs q' hlength way' => hnext (v :: vs) q' (congrArg (· + 1) hlength)
        (way.trans way')

theorem rowThen_congr (huse : ∀ r q, ∀ o ∈ use r q, o.Fits src q) (rules : List Rule)
    (heq : ∀ r ∈ rules, ∀ q, src.Leads place q → use r q = use' r q) :
    rowThen use next rules place = rowThen use' next rules place := by
  induction rules generalizing next place with
  | nil => rfl
  | cons rule rules ih =>
      obtain ⟨hfirst, hrest⟩ := List.forall_mem_cons.1 heq
      rw [rowThen, rowThen, ← hfirst place .refl]
      exact followedBy_congr (huse rule place) fun v q way =>
        ih fun r hr q' way' => hrest r hr q' (way.trans way')

/-- A single rule whose values are kept is that rule. -/
theorem rowThen_single (huse : ∀ r q, ∀ o ∈ use r q, o.Fits src q) (r : Rule) (place : Place) :
    rowThen use (fun vs q => vs.map (.success q)) [r] place = use r place := by
  have hstays : ∀ o ∈ use r place,
      o.followedBy (fun v q => [.success q v]) = [o] := by
    intro o ho
    cases hresult : o.result with
    | ok v =>
        obtain ⟨q, _⟩ := o
        cases hresult
        rfl
    | error e =>
        rw [Outcome.followedBy_error _ hresult, ← (huse r place o ho).eq_failure hresult]
  calc rowThen use (fun vs q => vs.map (.success q)) [r] place
      = (use r place).flatMap (Outcome.followedBy fun v q => [.success q v]) := rfl
    _ = (use r place).flatMap fun o => [o] := List.flatMap_congr hstays
    _ = use r place := by simp

end Row

/-! ### Rules that join other rules -/

/-- A form that does nothing but use some rules, and never gives up. -/
structure Form.Joins (form : Form τ α) (rules : List Rule) : Prop where
  direct : ∀ cell weak, form ≠ .reference cell weak
  parts : form.parts = rules
  total : form.Total

/-- A sequence that builds its value from those of its rules. -/
inductive Form.Sequences (build : List α → α) : List Rule → Form τ α → Prop
  | sequence {first : Rule} {others : List Rule} {build' : List α → Except Fault α}
      (hbuild : ∀ vs, vs.length = others.length + 1 → build' vs = .ok (build vs)) :
      Sequences build (first :: others) (.sequence first others build')

theorem Form.Sequences.joins {build : List α → α} {rules : List Rule} {form : Form τ α}
    (h : form.Sequences build rules) : form.Joins rules := by
  cases h with
  | sequence hbuild => exact ⟨nofun, rfl, fun vs hlength => ⟨build vs, hbuild vs hlength⟩⟩

namespace Grammar

variable {g : Grammar τ α σ} {tokens : List τ} {crumbs trail : Crumbs} {id : RuleId}
  {ids : List RuleId} {leaves rules : List Rule} {r r' : Rule} {q : Place} {start c c' : Nat}
  {info : RuleInfo} {form : Form τ α}

/-- What joins rules adds nothing that could be missing or fail. -/
theorem works_of_joins (hnode : g.node? r = some ⟨info, form⟩) (hjoins : form.Joins rules)
    (hrules : ∀ r' ∈ rules, g.Complete r' ∧ g.Total r') : g.Complete r ∧ g.Total r := by
  rw [complete_and_total_iff]
  intro r' hreach
  rcases hreach.cases_head with rfl | ⟨part, huse, hrest⟩
  · exact ⟨info, form, hnode, fun cell weak heq => absurd heq (hjoins.direct cell weak),
      hjoins.total⟩
  · have hpart := (uses_iff_mem_parts hnode hjoins.direct).1 huse
    rw [hjoins.parts] at hpart
    exact complete_and_total_iff.1 (hrules part hpart) r' hrest

/-- **A sequence is a row** that goes on with the value that it builds. -/
theorem outcomes_sequence (tokens : List τ) {build : List α → α}
    (hnode : g.node? r = some ⟨info, form⟩) (hform : form.Sequences build rules)
    (hfresh : trail.holds info.id q.consumed = false) :
    g.outcomes tokens r q trail
      = rowThen (fun r' q' => g.outcomes tokens r' q' (trail.enter info.id q.consumed))
          (fun vs q' => [.success q' (build vs)]) rules q := by
  cases hform with
  | @sequence first others build' hbuild =>
      rw [outcomes_fresh hnode hfresh, Form.outcomes, sequenceOutcomes_eq_rowThen]
      refine rowThen_congr_next (fun r' q' => g.outcomes_fits r' q' _) _ fun vs q' hlength _ => ?_
      rw [List.nil_append, hbuild vs hlength]
      rfl

/-! ### What rules see of the groups around them -/

theorem itemOutcomes_fits (g : Grammar τ α σ) (tokens : List τ) (start : Nat) (crumbs : Crumbs)
    (r : Rule) (q : Place) :
    ∀ o ∈ g.itemOutcomes tokens r start crumbs q, o.Fits (Source.ofList tokens) q :=
  g.outcomes_fits r q _

/-- At a position, a trail holds none of the groups, and shows the rules in them no more than
the trail does with which the outermost group was called at position `start`. -/
structure Sees (g : Grammar τ α σ) (start : Nat) (crumbs : Crumbs) (ids : List RuleId)
    (leaves : List Rule) (trail : Crumbs) (c : Nat) : Prop where
  clear : trail.Clear ids c
  same : ∀ r ∈ leaves, g.LooksSame r c trail (if c = start then crumbs else .root)

theorem sees_start (hclear : crumbs.Clear ids start) (leaves : List Rule) :
    g.Sees start crumbs ids leaves crumbs start :=
  ⟨hclear, fun _ _ _ _ => by rw [if_pos rfl]⟩

theorem Sees.mono {ids' : List RuleId} {leaves' : List Rule}
    (h : g.Sees start crumbs ids leaves trail c) (hids : ids' ⊆ ids) (hleaves : leaves' ⊆ leaves) :
    g.Sees start crumbs ids' leaves' trail c :=
  ⟨fun id hid => h.clear id (hids hid), fun r hr => h.same r (hleaves hr)⟩

/-- Inside of a group, at its own position and further on. -/
theorem Sees.enter (h : g.Sees start crumbs ids leaves trail c) (hstart : start ≤ c)
    (hid : id ∉ ids) (hbelow : ∀ r ∈ leaves, id ∉ g.idsBelow r) (hle : c ≤ c') :
    g.Sees start crumbs ids leaves (trail.enter id c) c' := by
  rcases Nat.eq_or_lt_of_le hle with rfl | hlt
  · refine ⟨fun id' hid' => ?_, fun r hr => (h.same r hr).enter_left (hbelow r hr)⟩
    have hne : id' ≠ id := fun heq => hid (heq ▸ hid')
    rw [Crumbs.holds_enter, decide_eq_false hne, h.clear id' hid']
    rfl
  · refine ⟨Crumbs.clear_enter_ahead _ _ _ hlt, fun r _ => ?_⟩
    rw [if_neg (by omega)]
    exact fun id' _ => Crumbs.holds_enter_ahead _ _ id' hlt

theorem Sees.outcomes_eq (h : g.Sees start crumbs ids leaves trail q.consumed) (hr : r ∈ leaves) :
    g.outcomes tokens r q trail = g.itemOutcomes tokens r start crumbs q :=
  outcomes_congr (h.same r hr)

/-! ### Checks -/

/-- Whether all that some rules use is among them, and none of them is a reference. -/
def closedUnder (g : Grammar τ α σ) (rules : List Rule) : Bool :=
  rules.all fun r =>
    match g.form? r with
    | some (.reference _ _) | none => false
    | some form => form.parts.all (rules.contains ·)

theorem node_of_closedUnder (h : g.closedUnder rules = true) (hr : r ∈ rules) :
    ∃ info form, g.node? r = some ⟨info, form⟩ ∧ (∀ cell weak, form ≠ .reference cell weak) ∧
      form.parts ⊆ rules := by
  have hform := List.all_eq_true.1 h r hr
  cases hnode : g.node? r with
  | none => simp [form?, hnode] at hform
  | some node =>
      obtain ⟨info, form⟩ := node
      refine ⟨info, form, rfl, ?_⟩
      simp only [form?, hnode, Option.map_some] at hform
      cases form with
      | reference cell weak => cases hform
      | _ =>
          refine ⟨fun cell weak heq => ?_, fun part hpart => ?_⟩
          · cases heq
          · exact List.contains_iff_mem.1 (List.all_eq_true.1 hform part hpart)

theorem mem_of_closedUnder (h : g.closedUnder rules = true) (hr : r ∈ rules)
    (hreach : g.Reaches r r') : r' ∈ rules := by
  induction hreach with
  | refl => exact hr
  | tail _ huse ih =>
      obtain ⟨info, form, hnode, hform, hparts⟩ := node_of_closedUnder h ih
      exact hparts ((uses_iff_mem_parts hnode hform).1 huse)

theorem complete_of_closedUnder (h : g.closedUnder rules = true) (hr : r ∈ rules) :
    g.Complete r := by
  intro r' hreach
  obtain ⟨info, form, hnode, hform, -⟩ := node_of_closedUnder h (mem_of_closedUnder h hr hreach)
  exact ⟨info, form, hnode, fun cell weak heq => absurd heq (hform cell weak)⟩

theorem not_mem_idsBelow_of_closedUnder (h : g.closedUnder rules = true)
    (hid : ∀ r ∈ rules, (g.info r).id ≠ id) (hr : r ∈ rules) : id ∉ g.idsBelow r := by
  rintro ⟨r', node, hreach, hnode, rfl⟩
  refine hid r' (mem_of_closedUnder h hr hreach) ?_
  rw [info, hnode]
  rfl

end Grammar

/-! ### Groups within groups -/

/-- Rules in groups, and groups in groups again. Each group is a rule too, and has a label. -/
inductive Nesting (β : Type)
  | single (r : Rule)
  | group (r : Rule) (id : RuleId) (label : β) (parts : List (Nesting β))

namespace Nesting

/-- The rule that stands for all. -/
def rule : Nesting β → Rule
  | single r => r
  | group r _ _ _ => r

mutual

/-- The rules in the groups, in order. -/
def leaves : Nesting β → List Rule
  | single r => [r]
  | group _ _ _ parts => leavesAll parts

def leavesAll : List (Nesting β) → List Rule
  | [] => []
  | part :: parts => leaves part ++ leavesAll parts

end

mutual

/-- The identities of the groups. -/
def ids : Nesting β → List RuleId
  | single _ => []
  | group _ id _ parts => id :: idsAll parts

def idsAll : List (Nesting β) → List RuleId
  | [] => []
  | part :: parts => ids part ++ idsAll parts

end

/-- One group of rules. -/
def flat (r : Rule) (id : RuleId) (label : β) (rules : List Rule) : Nesting β :=
  group r id label (rules.map single)

@[simp] theorem leaves_flat (r : Rule) (id : RuleId) (label : β) (rules : List Rule) :
    (flat r id label rules).leaves = rules := by
  rw [flat, leaves]
  induction rules with
  | nil => rfl
  | cons rule rules ih => rw [List.map_cons, leavesAll, leaves, ih, List.singleton_append]

theorem idsAll_map_single (rules : List Rule) :
    idsAll (rules.map single : List (Nesting β)) = [] := by
  induction rules with
  | nil => rfl
  | cons rule rules ih => rw [List.map_cons, idsAll, ids, ih, List.append_nil]

@[simp] theorem ids_flat (r : Rule) (id : RuleId) (label : β) (rules : List Rule) :
    (flat r id label rules).ids = [id] := by
  rw [flat, ids, idsAll_map_single]

/-- The groups stand in a grammar, each of a shape given by its label and by the rules of its
parts. No group has the identity of one inside of it. -/
inductive Stands (g : Grammar τ α σ) (Shape : β → List Rule → Form τ α → Prop) :
    Nesting β → Prop
  | single (r : Rule) : Stands g Shape (.single r)
  | group {r : Rule} {info : RuleInfo} {form : Form τ α} {label : β} {parts : List (Nesting β)}
      (hnode : g.node? r = some ⟨info, form⟩) (hshape : Shape label (parts.map rule) form)
      (hid : info.id ∉ idsAll parts) (hparts : ∀ part ∈ parts, Stands g Shape part) :
      Stands g Shape (.group r info.id label parts)

theorem Stands.flat {g : Grammar τ α σ} {Shape : β → List Rule → Form τ α → Prop} {r : Rule}
    {info : RuleInfo} {form : Form τ α} {label : β} {rules : List Rule}
    (hnode : g.node? r = some ⟨info, form⟩) (hshape : Shape label rules form) :
    (Nesting.flat r info.id label rules).Stands g Shape := by
  refine .group hnode ?_ ?_ fun part hpart => ?_
  · have hrules : (rules.map Nesting.single : List (Nesting β)).map rule = rules := by
      rw [List.map_map]
      exact List.map_id rules
    rwa [hrules]
  · rw [idsAll_map_single]
    exact List.not_mem_nil
  · obtain ⟨rule, -, rfl⟩ := List.mem_map.1 hpart
    exact .single rule

theorem leavesAll_eq (parts : List (Nesting β)) : leavesAll parts = parts.flatMap leaves := by
  induction parts with
  | nil => rfl
  | cons part parts ih => rw [leavesAll, ih, List.flatMap_cons]

theorem idsAll_eq (parts : List (Nesting β)) : idsAll parts = parts.flatMap ids := by
  induction parts with
  | nil => rfl
  | cons part parts ih => rw [idsAll, ih, List.flatMap_cons]

theorem leaves_subset_leavesAll {part : Nesting β} {parts : List (Nesting β)}
    (hpart : part ∈ parts) : part.leaves ⊆ leavesAll parts := by
  rw [leavesAll_eq]
  exact fun r hr => List.mem_flatMap.2 ⟨part, hpart, hr⟩

theorem ids_subset_idsAll {part : Nesting β} {parts : List (Nesting β)} (hpart : part ∈ parts) :
    part.ids ⊆ idsAll parts := by
  rw [idsAll_eq]
  exact fun id hid => List.mem_flatMap.2 ⟨part, hpart, hid⟩

/-- Groups add nothing that could be missing or fail. -/
theorem Stands.works {g : Grammar τ α σ} {Shape : β → List Rule → Form τ α → Prop}
    (hjoins : ∀ label rules form, Shape label rules form → form.Joins rules)
    {nested : Nesting β} (h : nested.Stands g Shape)
    (hleaves : ∀ r ∈ nested.leaves, g.Complete r ∧ g.Total r) :
    g.Complete nested.rule ∧ g.Total nested.rule := by
  induction h with
  | single r => exact hleaves r (List.mem_singleton_self r)
  | group hnode hshape _ _ ih =>
      refine Grammar.works_of_joins hnode (hjoins _ _ _ hshape) fun r hr => ?_
      obtain ⟨part, hpart, rfl⟩ := List.mem_map.1 hr
      exact ih part hpart fun r hr => hleaves r (leaves_subset_leavesAll hpart hr)

end Nesting

end LazyGrammar

import Mathlib.Data.List.Sort
import LazyGrammar.Proofs.Analysis.Again

/-!
# LazyGrammar.Proofs.Analysis.Declarative

**What the analysis of a finite graph of rules means**, with no word on how it is found: the
table has the rules below the root, the nullable rules are the least solution of the equations
that the shapes give, and the left-recursive ones are those on circles of the leftmost relation.

Design points:

* A survey that starts before all rules are there waits for them. Whichever way they are made, it
  comes to the same end as one that finds them all (`Leads.settles`), so the meaning is given for
  the graph in which they are there.
* The rules of a table come in some order, in which they are gone through again and again
  (`inOrder`). It decides what is learnt first, and shows nowhere in the result.
-/

namespace LazyGrammar

variable {τ α σ : Type} {g g₀ g₁ : Grammar τ α σ} {r root : Rule} {node : Node τ α}
  {shape : Shape} {id : RuleId}

/-! ### Least solutions -/

namespace Shapes

variable {shapes : Shapes} {known : RuleId → Prop}

/-- What is known solves the equations: a rule is known exactly if its shape is nullable by what
is known. -/
def Solves (shapes : Shapes) (known : RuleId → Prop) : Prop :=
  ∀ id shape, shapes id shape → (known id ↔ shape.NullableIf known)

/-- The nullable rules are a solution, where a rule has one shape. -/
theorem solves_nullable
    (hunique : ∀ {id shape shape'}, shapes id shape → shapes id shape' → shape' = shape) :
    shapes.Solves shapes.Nullable := by
  refine fun id shape hshape => ⟨fun h => ?_, .of_shape hshape⟩
  cases h with
  | leaf h =>
      cases hunique h hshape
      rfl
  | choice h hchild hnullable =>
      cases hunique h hshape
      exact ⟨_, hchild, hnullable⟩
  | chain h hall =>
      cases hunique h hshape
      exact hall

/-- Every solution has the nullable rules. -/
theorem Nullable.of_solves (h : shapes.Nullable id) (hsolves : shapes.Solves known) :
    known id := by
  induction h with
  | leaf h => exact (hsolves _ _ h).2 rfl
  | choice h hchild _ ih => exact (hsolves _ _ h).2 ⟨_, hchild, ih⟩
  | chain h _ ih => exact (hsolves _ _ h).2 ih

end Shapes

/-! ### The shapes below a root -/

/-- The shapes of the rules below a root. -/
def Grammar.shapesBelow (g : Grammar τ α σ) (root : Rule) : Shapes :=
  g.shapes (· ∈ g.idsBelow root) false

/-- Below a complete root every form has a shape. -/
theorem Grammar.Complete.exists_shape (h : g.Complete root) (hr : g.Reaches root r)
    (hnode : g.node? r = some node) : ∃ shape, node.form.shape g false = some shape := by
  obtain ⟨info, form⟩ := node
  cases form with
  | reference cell weak =>
      obtain ⟨r', htarget, -⟩ := h.reference hr hnode
      exact ⟨_, Form.shape_reference htarget weak false⟩
  | _ => exact ⟨_, rfl⟩

namespace Survey

variable {s s' t : Survey} {rest : List Rule} {entry : Entry}

/-- What holds of a survey under way: it has been to rules below the root, to each of them once,
and goes on below the root. -/
structure Within (s : Survey) (g : Grammar τ α σ) (root : Rule) : Prop where
  below : s.Below g root
  mem_ids : ∀ id, id ∈ s.ids ↔ s.table.contains id = true
  nodup : s.ids.Nodup
  entry : ∀ {id : RuleId} {entry : Entry}, s.table[id]? = some entry → entry.info.id = id ∧
    ∃ r node, g.Reaches root r ∧ g.node? r = some node ∧ node.info = entry.info ∧
      node.form.shape g false = some entry.shape

theorem Within.start : (start root).Within g root where
  below := by
    intro r hr
    rw [List.mem_singleton.1 hr]
    exact .refl
  mem_ids := by simp [Survey.start]
  nodup := .nil
  entry h := by simp [Survey.start] at h

theorem Within.next (h : s.Within g root) (hstep : s.step g = .next s') : s'.Within g root := by
  obtain ⟨r, rest, node, hstack, hnode, ⟨-, rfl⟩ | ⟨hnew, shape, hshape, rfl⟩⟩ := step_next hstep
  · exact ⟨fun r' hr' => h.below r' (hstack ▸ List.mem_cons_of_mem _ hr'), h.mem_ids, h.nodup,
      h.entry⟩
  · have hreach : g.Reaches root r := h.below r (hstack ▸ List.mem_cons_self ..)
    constructor
    · intro r' hr'
      rcases List.mem_append.1 hr' with hchild | hrest
      · exact hreach.tail (Form.uses_of_mem_children hnode (List.mem_reverse.1 hchild))
      · exact h.below r' (hstack ▸ List.mem_cons_of_mem _ hrest)
    · intro id
      simp only [Survey.enter, List.mem_cons, Std.HashMap.contains_insert, Bool.or_eq_true,
        beq_iff_eq, h.mem_ids]
      exact or_congr_left eq_comm
    · refine List.nodup_cons.2 ⟨fun hmem => ?_, h.nodup⟩
      rw [h.mem_ids, hnew] at hmem
      cases hmem
    · intro id entry hentry
      simp only [Survey.enter, Std.HashMap.getElem?_insert] at hentry
      split at hentry
      · next heq =>
        cases hentry
        exact ⟨beq_iff_eq.1 heq, r, node, hreach, hnode, rfl, hshape⟩
      · exact h.entry hentry

theorem Within.leads (h : s.Within g root) (hleads : Leads g s t) : t.Within g root := by
  induction hleads with
  | refl => exact h
  | tail _ hstep ih => exact ih.next hstep

/-- Below a complete root a survey does not stop before its stack is empty. -/
theorem Within.exists_step (h : s.Within g root) (hcomplete : g.Complete root)
    (hstack : s.stack = r :: rest) : ∃ s', s.step g = .next s' := by
  have hreach : g.Reaches root r := h.below r (hstack ▸ List.mem_cons_self ..)
  obtain ⟨info, form, hnode⟩ := (hcomplete.of_reaches hreach).node
  cases hmet : s.table.contains info.id with
  | true => exact ⟨_, step_skip hstack hnode hmet⟩
  | false =>
      obtain ⟨shape, hshape⟩ := hcomplete.exists_shape hreach hnode
      exact ⟨_, step_enter hstack hnode hmet hshape⟩

/-- **A survey below a complete root comes to an end.** -/
theorem Within.exists_leads (h : s.Within g root) (hcomplete : g.Complete root) :
    ∃ t, Leads g s t ∧ t.stack = [] := by
  induction hn : s.pending g using Nat.strong_induction_on generalizing s with
  | _ n ih =>
      subst hn
      cases hstack : s.stack with
      | nil => exact ⟨s, .refl, hstack⟩
      | cons r rest =>
          obtain ⟨s', hstep⟩ := h.exists_step hcomplete hstack
          obtain ⟨t, hleads, hend⟩ := ih _ (step_pending hstep) (h.next hstep) rfl
          exact ⟨t, .head hstep hleads, hend⟩

/-- **The table of a survey that is finished holds the shapes below the root.** -/
theorem Within.shapes_iff (h : t.Within g root) (hcovers : t.Covers g root) (hg : g.Consistent)
    (id : RuleId) (shape : Shape) : t.shapes id shape ↔ g.shapesBelow root id shape := by
  constructor
  · rintro ⟨info, hentry⟩
    obtain ⟨rfl, r, node, hreach, hnode, hinfo, hshape⟩ := h.entry hentry
    have hid : node.info.id = info.id := congrArg RuleInfo.id hinfo
    exact ⟨⟨r, node, hreach, hnode, hid⟩, r, node, hnode, hid, hshape⟩
  · rintro ⟨⟨r, node, hreach, hnode, rfl⟩, r', node', hnode', hid, hshape⟩
    have hmem : g.idOf r ∈ t.ids := by
      clear hnode
      induction hreach with
      | refl => exact hcovers.root
      | tail _ huse ih => exact hcovers.of_uses ih huse
    rw [g.idOf_eq hnode] at hmem
    have hform : node.form.shape g false = some shape := by
      rw [(hg.agree hnode hnode' hid.symm).shape_eq false, hshape]
    exact hcovers.shapes_of_form hnode hmem hform

/-- The table has the rules below the root. -/
theorem Within.mem_ids_iff (h : t.Within g root) (hcovers : t.Covers g root) (hg : g.Consistent)
    (hcomplete : g.Complete root) : id ∈ t.ids ↔ id ∈ g.idsBelow root := by
  constructor
  · intro hid
    rw [h.mem_ids, Std.HashMap.contains_eq_isSome_getElem?] at hid
    obtain ⟨entry, hentry⟩ := Option.isSome_iff_exists.1 hid
    obtain ⟨rfl, r, node, hreach, hnode, hinfo, -⟩ := h.entry hentry
    exact ⟨r, node, hreach, hnode, congrArg RuleInfo.id hinfo⟩
  · intro hid
    obtain ⟨r, node, hreach, hnode, heq⟩ := hid
    obtain ⟨shape, hshape⟩ := hcomplete.exists_shape hreach hnode
    exact hcovers.closed.mem_of_shape
      ((h.shapes_iff hcovers hg id shape).2
        ⟨⟨r, node, hreach, hnode, heq⟩, r, node, hnode, heq, hshape⟩)

/-! ### Surveys that wait -/

/-- A survey that starts in a stage of `g` comes to its end, whichever way the rules are made that
it has to wait for. -/
inductive Settles (g : Grammar τ α σ) (t : Survey) : Grammar τ α σ → Survey → Prop
  | finished {g₀ : Grammar τ α σ} {s : Survey} (hfinished : s.complete g₀ = .finished t) :
      Settles g t g₀ s
  | waiting {g₀ : Grammar τ α σ} {s s' : Survey} {cell : CellId}
      (hwaiting : s.complete g₀ = .waiting cell s')
      (later : ∀ g₁ : Grammar τ α σ, g₀.Stage g₁ → g₁.Stage g →
        (∃ made, g₁.target cell = .rule made) → Settles g t g₁ s') :
      Settles g t g₀ s

theorem Settles.of_next (h : Settles g t g₀ s') (hstep : s.step g₀ = .next s') :
    Settles g t g₀ s := by
  have heq := complete_of_next hstep
  cases h with
  | finished hfinished => exact .finished (heq.trans hfinished)
  | waiting hwaiting later => exact .waiting (heq.trans hwaiting) later

end Survey

theorem Grammar.Stage.idOf_eq (h : g₀.Stage g) (hr : g₀.Has r) : g₀.idOf r = g.idOf r := by
  simp only [Grammar.idOf, Grammar.info, h.node?_eq hr]

/-- A form has its shape in every stage in which it leads somewhere. -/
theorem Form.shape_stage (h : g₀.Stage g) (hnode : g₀.node? r = some node)
    (hshape : node.form.shape g false = some shape)
    (htarget : ∀ cell weak, node.form = .reference cell weak → g₀.target cell = g.target cell) :
    node.form.shape g₀ false = some shape ∧ node.form.children g₀ = node.form.children g := by
  by_cases hform : ∃ cell weak, node.form = .reference cell weak
  · obtain ⟨cell, weak, hform⟩ := hform
    have heq := htarget cell weak hform
    rw [hform] at hshape ⊢
    refine ⟨?_, by simp only [children, Grammar.cellRule?, heq]⟩
    simp only [Form.shape, heq] at hshape ⊢
    split at hshape
    · next r' hr' =>
      rw [h.idOf_eq (h.closed.target cell r' (heq.trans hr'))]
      exact hshape
    · cases hshape
  · have hplain : ∀ cell weak, node.form ≠ .reference cell weak :=
      fun cell weak heq => hform ⟨cell, weak, heq⟩
    constructor
    · rw [← hshape]
      exact shape_congr hplain fun r' hr' => h.idOf_eq (h.closed.part _ _ hnode r' hr')
    · cases hcase : node.form with
      | reference cell weak => exact absurd hcase (hplain cell weak)
      | _ => rfl

namespace Survey

variable {s s' t : Survey}

/-- A visit is the same in a stage where the rule on top leads as far. -/
theorem step_stage (h : g₀.Stage g) (hhas : ∀ r ∈ s.stack, g₀.Has r) (hstep : s.step g = .next s')
    (htarget : ∀ r rest info cell weak, s.stack = r :: rest →
      g.node? r = some ⟨info, .reference cell weak⟩ → s.table.contains info.id = false →
      g₀.target cell = g.target cell) :
    s.step g₀ = .next s' ∧ ∀ r ∈ s'.stack, g₀.Has r := by
  obtain ⟨r, rest, node, hstack, hnode, ⟨hmet, rfl⟩ | ⟨hnew, shape, hshape, rfl⟩⟩ := step_next hstep
  all_goals
    have hrest : ∀ r ∈ rest, g₀.Has r :=
      fun r hr => hhas r (hstack ▸ List.mem_cons_of_mem _ hr)
    have hnode₀ : g₀.node? r = some node :=
      (h.node?_eq (hhas r (hstack ▸ List.mem_cons_self ..))).trans hnode
  · exact ⟨step_skip hstack hnode₀ hmet, hrest⟩
  · obtain ⟨hshape₀, hchildren⟩ := Form.shape_stage h hnode₀ hshape fun cell weak hform =>
      htarget r rest node.info cell weak hstack (hform ▸ hnode) hnew
    refine ⟨hchildren ▸ step_enter hstack hnode₀ hnew hshape₀, fun r' hr' => ?_⟩
    rcases List.mem_append.1 hr' with hchild | hold
    · rw [List.mem_reverse, ← hchildren] at hchild
      cases Form.uses_of_mem_children hnode₀ hchild with
      | part hnode' hpart => exact h.closed.part _ _ hnode' _ hpart
      | target _ hrule => exact h.closed.target _ _ hrule
    · exact hrest r' hold

/-- In an earlier stage a survey visits the same rule next, or it waits for one. -/
theorem step_stage_or (h : g₀.Stage g) (hhas : ∀ r ∈ s.stack, g₀.Has r)
    (hstep : s.step g = .next s') :
    (s.step g₀ = .next s' ∧ ∀ r ∈ s'.stack, g₀.Has r) ∨
      ∃ cell, s.step g₀ = .waiting cell s ∧ ∀ g₁ : Grammar τ α σ, g₀.Stage g₁ → g₁.Stage g →
        (∃ made, g₁.target cell = .rule made) →
        s.step g₁ = .next s' ∧ ∀ r ∈ s'.stack, g₁.Has r := by
  obtain ⟨r, rest, node, hstack, hnode, hcases⟩ := step_next hstep
  by_cases hreference : ∃ cell weak, node.form = .reference cell weak ∧
      s.table.contains node.info.id = false
  · obtain ⟨cell, weak, hform, hnew⟩ := hreference
    obtain ⟨info, form⟩ := node
    cases hform
    have hhas₀ := hhas r (hstack ▸ List.mem_cons_self ..)
    have hnode₀ := (h.node?_eq hhas₀).trans hnode
    -- the rule on top is a reference that the survey has not entered, so `g` has what it leads to
    obtain ⟨r', htarget⟩ : ∃ r', g.target cell = .rule r' := by
      obtain ⟨hmet, -⟩ | ⟨-, shape, hshape, -⟩ := hcases
      · rw [hnew] at hmet
        cases hmet
      · simp only [Form.shape] at hshape
        split at hshape
        · next r' htarget => exact ⟨r', htarget⟩
        · cases hshape
    have honly : ∀ {g₂ : Grammar τ α σ}, g₂.target cell = .rule r' →
        ∀ r₂ rest₂ info₂ cell₂ weak₂, s.stack = r₂ :: rest₂ →
          g.node? r₂ = some ⟨info₂, .reference cell₂ weak₂⟩ →
          s.table.contains info₂.id = false → g₂.target cell₂ = g.target cell₂ := by
      intro g₂ hrule r₂ rest₂ info₂ cell₂ weak₂ hstack₂ hnode₂ _
      cases hstack.symm.trans hstack₂
      cases hnode.symm.trans hnode₂
      exact hrule.trans htarget.symm
    rcases h.target (h.closed.cell _ _ _ _ hnode₀) htarget with ⟨supplier, hpending⟩ | htarget₀
    · right
      refine ⟨cell,
        by simp only [step, hstack, hnode₀, hnew, Bool.false_eq_true, if_false, hpending],
        fun g₁ hg₀₁ hg₁ hmade => ?_⟩
      obtain ⟨made, hmade⟩ := hmade
      rw [hg₁.eq_of_target htarget hmade] at hmade
      exact step_stage hg₁ (fun r hr => hg₀₁.has (hhas r hr)) hstep (honly hmade)
    · exact Or.inl (step_stage h hhas hstep (honly htarget₀))
  · left
    refine step_stage h hhas hstep ?_
    intro r₂ rest₂ info₂ cell₂ weak₂ hstack₂ hnode₂ hnew₂
    cases hstack.symm.trans hstack₂
    cases hnode.symm.trans hnode₂
    exact absurd ⟨cell₂, weak₂, rfl, hnew₂⟩ hreference

/-- **What a survey comes to when all rules are there, it comes to from every stage.** -/
theorem Leads.settles (h : Leads g s t) (hstack : t.stack = []) (hstage : g₀.Stage g)
    (hhas : ∀ r ∈ s.stack, g₀.Has r) : Settles g t g₀ s := by
  induction h using Relation.ReflTransGen.head_induction_on generalizing g₀ with
  | refl => exact .finished (Leads.complete_eq .refl hstack)
  | head hstep _ ih =>
      rcases step_stage_or hstage hhas hstep with ⟨hstep₀, hhas'⟩ | ⟨cell, hwaiting, hlater⟩
      · exact (ih hstage hhas').of_next hstep₀
      · refine .waiting ((complete_of_stop (by simp [hwaiting])).trans hwaiting) ?_
        intro g₁ hg₀₁ hg₁ hmade
        obtain ⟨hstep₁, hhas₁⟩ := hlater g₁ hg₀₁ hg₁ hmade
        exact (ih hg₁ hhas₁).of_next hstep₁

/-! ### Orders -/

/-- A survey whose rules come in another order. -/
def inOrder (s : Survey) (order : List RuleId) : Survey := { s with ids := order }

theorem Closed.inOrder (h : s.Closed) {order : List RuleId} (horder : order.Perm s.ids) :
    (s.inOrder order).Closed where
  mem_ids id := horder.mem_iff.trans (h.mem_ids id)
  child hshape child hchild := horder.mem_iff.2 (h.child hshape child hchild)

end Survey

namespace Analysis

variable {s : Survey} {order : List RuleId} {a : Analysis}

/-- The analysis says that a rule can match nothing. -/
def Nullable (a : Analysis) (id : RuleId) : Prop :=
  ∃ p, a.properties? id = some p ∧ p.nullable = true

/-- The analysis says that a rule is left-recursive. -/
def LeftRecursive (a : Analysis) (id : RuleId) : Prop :=
  ∃ p, a.properties? id = some p ∧ p.leftRecursive = true

theorem nullable_ofSurvey (hs : s.Closed) : (ofSurvey s).Nullable id ↔ s.shapes.Nullable id := by
  constructor
  · rintro ⟨p, hp, hnullable⟩
    exact ((properties?_ofSurvey hs).1 hp).2.1.1 hnullable
  · intro h
    obtain ⟨p, hp, hnullable, -⟩ := exists_properties hs (hs.mem_of_nullable h)
    exact ⟨p, hp, hnullable.2 h⟩

theorem leftRecursive_ofSurvey (hs : s.Closed) :
    (ofSurvey s).LeftRecursive id ↔ s.shapes.Circular id := by
  constructor
  · rintro ⟨p, hp, hrecursive⟩
    exact ((properties?_ofSurvey hs).1 hp).2.2.1 hrecursive
  · intro h
    obtain ⟨p, hp, -, hrecursive⟩ := exists_properties hs (hs.mem_of_circular h)
    exact ⟨p, hp, hrecursive.2 h⟩

theorem mem_recursive_iff (hs : s.Closed) :
    id ∈ (ofSurvey s).recursive ↔ s.shapes.Circular id := by
  rw [mem_recursive hs, and_iff_right_of_imp hs.mem_of_circular]

/-- The left-recursive rules come once each, in the order in which they were made. -/
theorem pairwise_recursive (hnodup : s.ids.Nodup) :
    (ofSurvey s).recursive.Pairwise (· < ·) := by
  have hle : (s.ids.mergeSort (· ≤ ·)).Pairwise (· ≤ ·) := List.pairwise_mergeSort' _ _
  have hne : (s.ids.mergeSort (· ≤ ·)).Nodup := (List.mergeSort_perm _ _).nodup_iff.2 hnodup
  exact ((hle.and hne).imp fun h => Nat.lt_of_le_of_ne h.1 h.2).filter _

theorem recursive_inOrder (hs : s.Closed) (hnodup : s.ids.Nodup) (horder : order.Perm s.ids) :
    (ofSurvey (s.inOrder order)).recursive = (ofSurvey s).recursive := by
  refine (pairwise_recursive (horder.nodup_iff.2 hnodup)).eq_of_mem_iff
    (pairwise_recursive hnodup) fun id => ?_
  rw [mem_recursive_iff (hs.inOrder horder), mem_recursive_iff hs]
  rfl

/-- **The order of the rules does not show** in what the analysis says of a rule. -/
theorem properties?_inOrder (hs : s.Closed) (horder : order.Perm s.ids) (id : RuleId) :
    (ofSurvey (s.inOrder order)).properties? id = (ofSurvey s).properties? id := by
  ext p
  rw [properties?_ofSurvey (hs.inOrder horder), properties?_ofSurvey hs]
  exact and_congr_left' horder.mem_iff

theorem leftRecursiveRules_inOrder (hs : s.Closed) (hnodup : s.ids.Nodup)
    (horder : order.Perm s.ids) :
    (ofSurvey (s.inOrder order)).leftRecursiveRules = (ofSurvey s).leftRecursiveRules := by
  rw [leftRecursiveRules, recursive_inOrder hs hnodup horder]
  rfl

/-- The rules that are listed as left-recursive have the identities that are. -/
theorem map_leftRecursiveRules (hs : s.Closed)
    (hinfo : ∀ {id : RuleId} {entry : Entry}, s.table[id]? = some entry → entry.info.id = id) :
    (ofSurvey s).leftRecursiveRules.map (·.id) = (ofSurvey s).recursive := by
  have hsome : ∀ id ∈ (ofSurvey s).recursive,
      ((s.table[id]?).map (·.info)).map (·.id) = some id := by
    intro id hid
    have hcontains := (hs.mem_ids id).1 ((mem_recursive hs).1 hid).1
    rw [Std.HashMap.contains_eq_isSome_getElem?] at hcontains
    obtain ⟨entry, hentry⟩ := Option.isSome_iff_exists.1 hcontains
    simp [hentry, hinfo hentry]
  rw [leftRecursiveRules, List.map_filterMap]
  exact (List.filterMap_congr hsome).trans List.filterMap_some

end Analysis

/-- **The analysis computes its meaning.** For every graph of rules that operations build and in
which every reference below the root leads somewhere, the survey comes to an end from every stage
of the graph, and, in whatever order its rules are gone through: the analysis knows exactly the
rules below the root; those that it calls nullable are the least solution; a rule is
left-recursive exactly if it lies on a circle of the leftmost relation; the left-recursive rules
are listed once each, with rising identities; and no order gives another result. What is bounded
stops by itself: more rounds give neither another set of nullable rules nor another circle. -/
theorem analysis_is_declarative (hbuilt : g.Built) (hcomplete : g.Complete root) :
    ∃ s, (∀ g₀ : Grammar τ α σ, g₀.Stage g → g₀.Has root → Survey.Settles g s g₀ (.start root)) ∧
      ∀ order : List RuleId, order.Perm s.ids →
        ∀ a, a = Analysis.ofSurvey (s.inOrder order) →
          (∀ id, a.Knows id ↔ id ∈ g.idsBelow root) ∧
          (g.shapesBelow root).Solves a.Nullable ∧
          (∀ known, (g.shapesBelow root).Solves known → ∀ id, a.Nullable id → known id) ∧
          (∀ id, a.LeftRecursive id ↔ (g.shapesBelow root).Circular id) ∧
          (a.leftRecursiveRules.map (·.id)).Pairwise (· < ·) ∧
          (∀ id, id ∈ a.leftRecursiveRules.map (·.id) ↔ a.LeftRecursive id) ∧
          a.properties? = (Analysis.ofSurvey s).properties? ∧
          a.leftRecursiveRules = (Analysis.ofSurvey s).leftRecursiveRules ∧
          (∀ rounds, s.ids.length < rounds → (s.inOrder order).solve rounds ∅ = a.nullable) ∧
          ∀ id rounds, s.ids.length + 1 < rounds →
            (s.inOrder order).reaches a.nullable id rounds ∅
                ((s.inOrder order).leftmost a.nullable id)
              = (s.inOrder order).reachesItself a.nullable id := by
  have hg := hbuilt.consistent
  obtain ⟨s, hleads, hstack⟩ := Survey.Within.start.exists_leads hcomplete
  have hwithin : s.Within g root := Survey.Within.start.leads hleads
  have hroot : g.Has root := by
    obtain ⟨info, form, hnode⟩ := hcomplete.node
    exact ⟨_, hnode⟩
  have hcovers : s.Covers g root := by
    have hmaps := Survey.run_maps hg.closed (Survey.visits g (.start root))
      (Survey.Maps.start hroot)
    rw [← Survey.complete, hleads.complete_eq hstack] at hmaps
    exact hmaps.1.covers hstack hg
  have hshapes : s.shapes = g.shapesBelow root := by
    funext id shape
    exact propext (hwithin.shapes_iff hcovers hg id shape)
  refine ⟨s, fun g₀ hstage hhas => hleads.settles hstack hstage ?_, ?_⟩
  · intro r hr
    cases List.mem_singleton.1 hr
    exact hhas
  rintro order horder a rfl
  have hs := hcovers.closed
  have hs' := hs.inOrder horder
  have hnullable : (Analysis.ofSurvey (s.inOrder order)).Nullable
      = (g.shapesBelow root).Nullable := by
    funext id
    exact propext ((Analysis.nullable_ofSurvey hs').trans (hshapes ▸ Iff.rfl))
  have hrecursive : ∀ id, (Analysis.ofSurvey (s.inOrder order)).LeftRecursive id ↔
      (g.shapesBelow root).Circular id :=
    fun id => (Analysis.leftRecursive_ofSurvey hs').trans (hshapes ▸ Iff.rfl)
  have hlisted := Analysis.map_leftRecursiveRules hs' fun hentry => (hwithin.entry hentry).1
  have hlength : (s.inOrder order).ids.length = s.ids.length := horder.length_eq
  refine ⟨fun id => ?_, ?_, fun known hsolves id hid => ?_, hrecursive, ?_, fun id => ?_, ?_, ?_,
    fun rounds hrounds => ?_, fun id rounds hrounds => ?_⟩
  · rw [Analysis.knows_ofSurvey hs', ← hwithin.mem_ids_iff hcovers hg hcomplete]
    exact horder.mem_iff
  · rw [hnullable, ← hshapes]
    exact Shapes.solves_nullable Survey.shapes_eq
  · exact Shapes.Nullable.of_solves (hnullable ▸ hid) hsolves
  · rw [hlisted]
    exact Analysis.pairwise_recursive (horder.nodup_iff.2 hwithin.nodup)
  · rw [hlisted, Analysis.mem_recursive_iff hs', Analysis.leftRecursive_ofSurvey hs']
  · funext id
    exact Analysis.properties?_inOrder hs horder id
  · exact Analysis.leftRecursiveRules_inOrder hs hwithin.nodup horder
  · exact Survey.solve_eq_nullableIds hs' (hlength ▸ hrounds)
  · exact Survey.reaches_eq_reachesItself hs' id (hlength ▸ hrounds)

/-! ### A rule that starts again -/

namespace Grammar

theorem stuttering_complete : stuttering.Complete ⟨5⟩ := by
  refine stuttering_built.consistent.closed.complete ?_ ⟨_, rfl⟩
  intro cell hcell
  match cell, hcell with
  | 0, _ => exact ⟨⟨4⟩, rfl⟩

theorem stuttering_shapes (id : RuleId) (shape : Shape) :
    stuttering.shapesBelow ⟨5⟩ id shape ↔ (id, shape) ∈ [(0, .chain [4]), (1, .leaf true),
      (2, .chain [1, 0]), (3, .leaf false), (4, .choice [2, 3])] := by
  constructor
  · rintro ⟨-, r, node, hnode, rfl, hshape⟩
    have hmem := Array.mem_toList_iff.2 (Array.mem_of_getElem? hnode)
    simp only [stuttering, again, List.mem_cons, List.not_mem_nil, or_false] at hmem
    rcases hmem with rfl | rfl | rfl | rfl | rfl | rfl <;> cases hshape <;> decide
  · have hroot : stuttering.node? ⟨5⟩ = some ⟨⟨0, .recursive, none⟩, .reference 0 false⟩ := rfl
    have hbody : stuttering.Reaches ⟨5⟩ ⟨4⟩ := .single (.target hroot rfl)
    have hturn : stuttering.Reaches ⟨5⟩ ⟨2⟩ := hbody.tail (.part rfl (List.mem_cons_self ..))
    have hother : stuttering.Reaches ⟨5⟩ ⟨3⟩ :=
      hbody.tail (.part rfl (List.mem_cons_of_mem _ (List.mem_cons_self ..)))
    have hguard : stuttering.Reaches ⟨5⟩ ⟨1⟩ := hturn.tail (.part rfl (List.mem_cons_self ..))
    intro hmem
    simp only [List.mem_cons, Prod.mk.injEq, List.not_mem_nil, or_false] at hmem
    rcases hmem with ⟨rfl, rfl⟩ | ⟨rfl, rfl⟩ | ⟨rfl, rfl⟩ | ⟨rfl, rfl⟩ | ⟨rfl, rfl⟩
    · exact ⟨⟨⟨5⟩, _, .refl, rfl, rfl⟩, ⟨5⟩, _, rfl, rfl, rfl⟩
    · exact ⟨⟨⟨1⟩, _, hguard, rfl, rfl⟩, ⟨1⟩, _, rfl, rfl, rfl⟩
    · exact ⟨⟨⟨2⟩, _, hturn, rfl, rfl⟩, ⟨2⟩, _, rfl, rfl, rfl⟩
    · exact ⟨⟨⟨3⟩, _, hother, rfl, rfl⟩, ⟨3⟩, _, rfl, rfl, rfl⟩
    · exact ⟨⟨⟨4⟩, _, hbody, rfl, rfl⟩, ⟨4⟩, _, rfl, rfl, rfl⟩

/-- The rule, its body and its turn lie on the only circle. -/
theorem stuttering_circular_iff (id : RuleId) :
    (stuttering.shapesBelow ⟨5⟩).Circular id ↔ id ∈ [0, 2, 4] := by
  have hshapes := stuttering_shapes
  have hchain : stuttering.shapesBelow ⟨5⟩ 0 (.chain (4 :: [])) := (hshapes ..).2 (by simp)
  have hchoice : stuttering.shapesBelow ⟨5⟩ 4 (.choice [2, 3]) := (hshapes ..).2 (by simp)
  have hagain : stuttering.shapesBelow ⟨5⟩ 2 (.chain ([1] ++ 0 :: [])) := (hshapes ..).2 (by simp)
  have hguard : (stuttering.shapesBelow ⟨5⟩).Nullable 1 := .leaf ((hshapes ..).2 (by simp))
  have hroot : (stuttering.shapesBelow ⟨5⟩).Leftmost 0 4 := .first hchain
  have hbody : (stuttering.shapesBelow ⟨5⟩).Leftmost 4 2 := .choice hchoice (by simp)
  have hturn : (stuttering.shapesBelow ⟨5⟩).Leftmost 2 0 := .chain hagain (by simp [hguard])
  constructor
  · intro h
    obtain ⟨child, hfirst, -⟩ := Relation.TransGen.head'_iff.1 h
    obtain ⟨shape, hshape, hchild⟩ := hfirst.mem_children
    have hmem := (hshapes ..).1 hshape
    simp only [List.mem_cons, Prod.mk.injEq, List.not_mem_nil, or_false] at hmem
    rcases hmem with ⟨rfl, rfl⟩ | ⟨rfl, rfl⟩ | ⟨rfl, rfl⟩ | ⟨rfl, rfl⟩ | ⟨rfl, rfl⟩
    · decide
    · cases hchild
    · decide
    · cases hchild
    · decide
  · intro hid
    simp only [List.mem_cons, List.not_mem_nil, or_false] at hid
    rcases hid with rfl | rfl | rfl
    · exact .head hroot (.head hbody (.single hturn))
    · exact .head hturn (.head hroot (.single hbody))
    · exact .head hbody (.head hturn (.single hroot))

end Grammar

/-- The rule that starts again at once: two of its nodes share an identity, and its circle goes
through a sequence that starts with a rule that matches nothing. Its rules may be gone through
backwards. -/
theorem stuttering_analysis_is_declarative :
    Grammar.stuttering.Built ∧ Grammar.stuttering.Complete ⟨5⟩ ∧
    ∃ s : Survey, Survey.Settles Grammar.stuttering s Grammar.stuttering (.start ⟨5⟩) ∧
      s.ids.reverse.Perm s.ids ∧
      (Analysis.ofSurvey (s.inOrder s.ids.reverse)).Nullable 1 ∧
      (Analysis.ofSurvey (s.inOrder s.ids.reverse)).leftRecursiveRules.map (·.id) = [0, 2, 4] := by
  obtain ⟨s, hsettles, horders⟩ :=
    analysis_is_declarative Grammar.stuttering_built Grammar.stuttering_complete
  obtain ⟨-, hsolves, -, hrecursive, hsorted, hlisted, -⟩ :=
    horders s.ids.reverse s.ids.reverse_perm _ rfl
  have hclosed := Grammar.stuttering_built.consistent.closed
  refine ⟨Grammar.stuttering_built, Grammar.stuttering_complete, s,
    hsettles _ (.refl hclosed) ⟨_, rfl⟩, s.ids.reverse_perm, ?_, ?_⟩
  · exact (hsolves 1 (.leaf true) ((Grammar.stuttering_shapes ..).2 (by simp))).2 rfl
  · refine hsorted.eq_of_mem_iff (by simp) fun id => ?_
    rw [hlisted, hrecursive, Grammar.stuttering_circular_iff]

end LazyGrammar

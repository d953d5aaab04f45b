import Mathlib.Data.Finset.Card
import Mathlib.Data.Set.Card
import Mathlib.Logic.Relation
import LazyGrammar.Rule.Graph

/-!
# LazyGrammar.Proofs.Rule.Reach

**The part of a grammar below a rule**: the rules that it uses, directly or through
others.

Design points:

* `Complete` and `Total` are about the rules below a root only. What else a grammar
  holds may be unfinished.
* A rule that a supplier makes comes into the grammar when it is needed first. A
  grammar in which some suppliers have not run yet is an earlier **stage** of the one
  in which they all have: it has fewer nodes, and some of its cells still wait. Rules
  that nothing keeps may be released from one stage to the next.
-/

namespace LazyGrammar

variable {τ α σ : Type}

/-- The functions of a form never give up on values it can have for them. -/
def Form.Total : Form τ α → Prop
  | .terminal accept => ∀ t, ∃ v, accept t = .ok v
  | .map _ f => ∀ v, ∃ w, f v = .ok w
  | .sequence _ others build => ∀ vs, vs.length = others.length + 1 → ∃ w, build vs = .ok w
  | _ => True

namespace Grammar

variable {g : Grammar τ α σ} {r r' : Rule}

/-! ### Rules below a rule -/

/-- A rule uses another one directly: as a part, or as the rule it refers to. -/
inductive Uses (g : Grammar τ α σ) (r : Rule) : Rule → Prop
  | part {node : Node τ α} {r' : Rule} (hnode : g.node? r = some node)
      (hpart : r' ∈ node.form.parts) : Uses g r r'
  | target {info : RuleInfo} {cell : CellId} {weak : Bool} {r' : Rule}
      (hnode : g.node? r = some ⟨info, .reference cell weak⟩)
      (htarget : g.target cell = .rule r') : Uses g r r'

theorem uses_iff_mem_parts {info : RuleInfo} {form : Form τ α}
    (hnode : g.node? r = some ⟨info, form⟩) (hform : ∀ cell weak, form ≠ .reference cell weak) :
    g.Uses r r' ↔ r' ∈ form.parts := by
  constructor
  · rintro (⟨hnode', hpart⟩ | ⟨hnode', -⟩)
    · cases hnode.symm.trans hnode'
      exact hpart
    · cases hnode.symm.trans hnode'
      exact absurd rfl (hform _ _)
  · exact .part hnode

theorem uses_reference_iff {info : RuleInfo} {cell : CellId} {weak : Bool}
    (hnode : g.node? r = some ⟨info, .reference cell weak⟩) :
    g.Uses r r' ↔ g.target cell = .rule r' := by
  constructor
  · rintro (⟨hnode', hpart⟩ | ⟨hnode', htarget⟩)
    · cases hnode.symm.trans hnode'
      cases hpart
    · cases hnode.symm.trans hnode'
      exact htarget
  · exact .target hnode

/-- A rule uses another one, directly or through others, or is that rule. -/
def Reaches (g : Grammar τ α σ) : Rule → Rule → Prop := Relation.ReflTransGen g.Uses

/-- A rule below one of several is another one of them, or below one where they lead to. -/
theorem mem_or_exists_reaches {S T : Set Rule}
    (hS : ∀ r ∈ S, ∀ r', g.Uses r r' → r' ∈ S ∨ r' ∈ T) (hr : r ∈ S) (hreach : g.Reaches r r') :
    r' ∈ S ∨ ∃ q ∈ T, g.Reaches q r' := by
  induction hreach using Relation.ReflTransGen.head_induction_on with
  | refl => exact .inl hr
  | head huse hrest ih =>
      rcases hS _ hr _ huse with hmem | hmem
      · exact ih hmem
      · exact .inr ⟨_, hmem, hrest⟩

/-- Every rule below the root is there, and every reference leads to a rule. -/
def Complete (g : Grammar τ α σ) (root : Rule) : Prop :=
  ∀ r, g.Reaches root r → ∃ info form, g.node? r = some ⟨info, form⟩ ∧
    ∀ cell weak, form = .reference cell weak → ∃ r', g.target cell = .rule r'

/-- No function of a rule below the root ever gives up. -/
def Total (g : Grammar τ α σ) (root : Rule) : Prop :=
  ∀ r node, g.Reaches root r → g.node? r = some node → node.form.Total

theorem Complete.of_reaches (h : g.Complete r) (hr : g.Reaches r r') : g.Complete r' :=
  fun r'' hr' => h r'' (hr.trans hr')

theorem Complete.of_uses (h : g.Complete r) (hu : g.Uses r r') : g.Complete r' :=
  h.of_reaches (.single hu)

theorem Total.of_reaches (h : g.Total r) (hr : g.Reaches r r') : g.Total r' :=
  fun r'' node hr' hnode => h r'' node (hr.trans hr') hnode

theorem Total.of_uses (h : g.Total r) (hu : g.Uses r r') : g.Total r' :=
  h.of_reaches (.single hu)

theorem Complete.node (h : g.Complete r) : ∃ info form, g.node? r = some ⟨info, form⟩ := by
  obtain ⟨info, form, hnode, -⟩ := h r Relation.ReflTransGen.refl
  exact ⟨info, form, hnode⟩

theorem Complete.target {info : RuleInfo} {cell : CellId} {weak : Bool} (h : g.Complete r)
    (hnode : g.node? r = some ⟨info, .reference cell weak⟩) : ∃ r', g.target cell = .rule r' := by
  obtain ⟨info', form, hnode', htarget⟩ := h r Relation.ReflTransGen.refl
  rw [hnode] at hnode'
  cases hnode'
  exact htarget cell weak rfl

/-- A reference below a complete root leads to a rule below it. -/
theorem Complete.reference {root : Rule} {info : RuleInfo} {cell : CellId} {weak : Bool}
    (h : g.Complete root) (hr : g.Reaches root r)
    (hnode : g.node? r = some ⟨info, .reference cell weak⟩) :
    ∃ r', g.target cell = .rule r' ∧ g.Reaches root r' := by
  obtain ⟨_, _, hnode', htarget⟩ := h r hr
  rw [hnode] at hnode'
  cases hnode'
  obtain ⟨r', hr'⟩ := htarget cell weak rfl
  exact ⟨r', hr', hr.tail (.target hnode hr')⟩

theorem Total.form {node : Node τ α} (h : g.Total r) (hnode : g.node? r = some node) :
    node.form.Total :=
  h r node Relation.ReflTransGen.refl hnode

/-! ### Identities -/

/-- The identities of a grammar's rules. -/
def ids (g : Grammar τ α σ) : Finset RuleId := (g.nodes.toList.map (·.info.id)).toFinset

/-- The identities of the rules below a root. -/
def idsBelow (g : Grammar τ α σ) (root : Rule) : Set RuleId :=
  {id | ∃ r node, g.Reaches root r ∧ g.node? r = some node ∧ node.info.id = id}

theorem id_mem_ids {node : Node τ α} (hnode : g.node? r = some node) : node.info.id ∈ g.ids := by
  have hmem : node ∈ g.nodes.toList := Array.mem_toList_iff.2 (Array.mem_of_getElem? hnode)
  exact List.mem_toFinset.2 (List.mem_map_of_mem hmem)

theorem card_ids_le (g : Grammar τ α σ) : g.ids.card ≤ g.nodes.size := by
  calc g.ids.card ≤ (g.nodes.toList.map (·.info.id)).length := List.toFinset_card_le _
    _ = g.nodes.size := by simp

theorem id_mem_idsBelow {node : Node τ α} (hnode : g.node? r = some node) :
    node.info.id ∈ g.idsBelow r :=
  ⟨r, node, .refl, hnode, rfl⟩

theorem idsBelow_of_uses (hu : g.Uses r r') : g.idsBelow r' ⊆ g.idsBelow r := by
  rintro id ⟨q, node, hreach, hnode, hid⟩
  exact ⟨q, node, .head hu hreach, hnode, hid⟩

theorem idsBelow_subset (g : Grammar τ α σ) (root : Rule) : g.idsBelow root ⊆ ↑g.ids := by
  intro id hid
  obtain ⟨r, node, -, hnode, rfl⟩ := hid
  exact id_mem_ids hnode

theorem finite_idsBelow (g : Grammar τ α σ) (root : Rule) : (g.idsBelow root).Finite :=
  g.ids.finite_toSet.subset (g.idsBelow_subset root)

/-! ### Stages -/

/-- The grammar has the rule. -/
def Has (g : Grammar τ α σ) (r : Rule) : Prop := ∃ node, g.node? r = some node

/-- Whatever a rule or a cell names is there. -/
structure Closed (g : Grammar τ α σ) : Prop where
  part : ∀ r node, g.node? r = some node → ∀ r' ∈ node.form.parts, g.Has r'
  cell : ∀ r info cell weak, g.node? r = some ⟨info, .reference cell weak⟩ →
    cell < g.cells.size
  target : ∀ cell r, g.target cell = .rule r → g.Has r

/-- `g₀` is an earlier stage of `g`: between the two, suppliers have run, each of which has
added rules and filled its cell, and recursive rules may have been released. -/
structure Stage (g₀ g : Grammar τ α σ) : Prop where
  closed : g₀.Closed
  node : ∀ r node, g₀.node? r = some node → g.node? r = some node
  cell : ∀ (cell : CellId) (content : Cell σ), g₀.cells[cell]? = some content →
    (∃ supplier, content = .deferred supplier) ∨ g.cells[cell]? = some content ∨
      g.cells[cell]? = some .released
  size : g₀.cells.size ≤ g.cells.size

theorem Stage.refl (h : g.Closed) : g.Stage g :=
  ⟨h, fun _ _ hnode => hnode, fun _ _ hcell => Or.inr (Or.inl hcell), Nat.le_refl _⟩

theorem Stage.has {g₀ : Grammar τ α σ} (h : g₀.Stage g) (hr : g₀.Has r) : g.Has r := by
  obtain ⟨node, hnode⟩ := hr
  exact ⟨node, h.node r node hnode⟩

theorem Stage.node?_eq {g₀ : Grammar τ α σ} (h : g₀.Stage g) (hr : g₀.Has r) :
    g₀.node? r = g.node? r := by
  obtain ⟨node, hnode⟩ := hr
  rw [hnode, h.node r node hnode]

/-- A cell of an earlier stage that leads to a rule in the end leads to it already, unless
its supplier has not run. -/
theorem Stage.target {g₀ : Grammar τ α σ} (h : g₀.Stage g) {cell : CellId}
    (hcell : cell < g₀.cells.size) (hrule : g.target cell = .rule r) :
    (∃ supplier, g₀.target cell = .pending supplier) ∨ g₀.target cell = .rule r := by
  have hget : g₀.cells[cell]? = some g₀.cells[cell] := Array.getElem?_eq_getElem hcell
  rcases h.cell cell _ hget with ⟨supplier, hdeferred⟩ | hkept | hreleased
  · refine Or.inl ⟨supplier, ?_⟩
    simp only [Grammar.target, hget, hdeferred, Cell.target]
  · right
    rw [← hrule]
    simp only [Grammar.target, hget, hkept]
  · -- a released rule is nowhere any more, so the cell could not lead to one
    simp only [Grammar.target, hreleased, Cell.target] at hrule
    cases hrule

/-- A cell that leads to rules in two stages leads to the same one. -/
theorem Stage.eq_of_target {g₀ : Grammar τ α σ} (h : g₀.Stage g) {cell : CellId}
    (hrule : g.target cell = .rule r) (hrule' : g₀.target cell = .rule r') : r' = r := by
  have hcell : cell < g₀.cells.size := by
    unfold Grammar.target at hrule'
    split at hrule'
    · next content hget => exact (Array.getElem?_eq_some_iff.1 hget).1
    · cases hrule'
  rcases h.target hcell hrule with ⟨supplier, hpending⟩ | hsame
  · rw [hrule'] at hpending
    cases hpending
  · rw [hrule'] at hsame
    cases hsame
    rfl

/-! ### Checks -/

/-- Whether the grammar has the rule. -/
def has (g : Grammar τ α σ) (r : Rule) : Bool := r.node < g.nodes.size

theorem has_iff : g.has r = true ↔ g.Has r := by
  simp only [has, Has, node?, decide_eq_true_eq]
  constructor
  · intro hlt
    exact ⟨_, Array.getElem?_eq_getElem hlt⟩
  · intro hhas
    obtain ⟨node, hnode⟩ := hhas
    exact (Array.getElem?_eq_some_iff.1 hnode).1

/-- Whether whatever a node names is there. -/
def closedNode (g : Grammar τ α σ) (node : Node τ α) : Bool :=
  node.form.parts.all g.has &&
    match node.form with
    | .reference cell _ => cell < g.cells.size
    | _ => true

/-- Whether the rule that a cell leads to is there. -/
def closedCell (g : Grammar τ α σ) (content : Cell σ) : Bool :=
  match content.target with
  | .rule r => g.has r
  | _ => true

/-- Whatever a grammar names is there if it is for each node and for each cell. -/
theorem closed_of_all (hnodes : g.nodes.toList.all g.closedNode = true)
    (hcells : g.cells.toList.all g.closedCell = true) : g.Closed := by
  have hnode : ∀ r node, g.node? r = some node → g.closedNode node = true := by
    intro r node hget
    exact List.all_eq_true.1 hnodes node (Array.mem_toList_iff.2 (Array.mem_of_getElem? hget))
  refine ⟨?_, ?_, ?_⟩
  · intro r node hget r' hr'
    have hparts := (Bool.and_eq_true_iff.1 (hnode r node hget)).1
    exact has_iff.1 (List.all_eq_true.1 hparts r' hr')
  · intro r info cell weak hget
    exact of_decide_eq_true (Bool.and_eq_true_iff.1 (hnode r _ hget)).2
  · intro cell r htarget
    unfold target at htarget
    split at htarget
    · next content hget =>
      have hcell := List.all_eq_true.1 hcells content
        (Array.mem_toList_iff.2 (Array.mem_of_getElem? hget))
      simp only [closedCell, htarget] at hcell
      exact has_iff.1 hcell
    · cases htarget

/-- A grammar names what is there, so what is below a rule that is there is there. -/
theorem Closed.has_of_reaches (h : g.Closed) (hr : g.Has r) (hreach : g.Reaches r r') :
    g.Has r' := by
  induction hreach with
  | refl => exact hr
  | tail _ hu _ =>
      cases hu with
      | part hnode hpart => exact h.part _ _ hnode _ hpart
      | target hnode htarget => exact h.target _ _ htarget

/-- A grammar that names what is there, and all of whose cells lead to rules, is complete
below each of its rules. -/
theorem Closed.complete (h : g.Closed)
    (hcells : ∀ cell < g.cells.size, ∃ r', g.target cell = .rule r') (hr : g.Has r) :
    g.Complete r := by
  intro r' hreach
  obtain ⟨⟨info, form⟩, hnode⟩ := h.has_of_reaches hr hreach
  refine ⟨info, form, hnode, ?_⟩
  intro cell weak hform
  subst hform
  exact hcells cell (h.cell _ _ _ _ hnode)

/-- Functions that never give up in any node never do so below a rule. -/
theorem total_of_all (h : ∀ node ∈ g.nodes.toList, node.form.Total) (r : Rule) : g.Total r :=
  fun _ node _ hnode => h node (Array.mem_toList_iff.2 (Array.mem_of_getElem? hnode))

/-! ### Sums

A grammar of sums, which may start or end with a shorter sum, so that its rule is
left-recursive and ambiguous. A supplier makes the rule for numbers. -/

/-- The digits of a number as a number. -/
def decimal (digits : List Nat) : Nat := digits.foldl (fun n digit => 10 * n + digit) 0

/-- The grammar of sums before the rule for numbers has been made. -/
def sumsAtFirst : Grammar Char Nat Unit where
  nodes := #[
    ⟨⟨0, .recursive, none⟩, .reference 0 true⟩,
    ⟨⟨1, .just, none⟩, .terminal fun c => .ok (if c = '+' then some 0 else none)⟩,
    ⟨⟨2, .lazy, none⟩, .reference 1 false⟩,
    ⟨⟨3, .sequence, none⟩, .sequence ⟨2⟩ [⟨1⟩, ⟨0⟩] fun vs => .ok vs.sum⟩,
    ⟨⟨4, .sequence, none⟩, .sequence ⟨0⟩ [⟨1⟩, ⟨2⟩] fun vs => .ok vs.sum⟩,
    ⟨⟨5, .oneOf, none⟩, .oneOf ⟨2⟩ [⟨3⟩, ⟨4⟩]⟩,
    ⟨⟨0, .recursive, none⟩, .reference 0 false⟩]
  cells := #[.recursive ⟨5⟩, .deferred ()]
  nextId := 6

/-- The grammar of sums. Its root is the last rule of the first stage. -/
def sums : Grammar Char Nat Unit where
  nodes := sumsAtFirst.nodes ++ #[
    ⟨⟨6, .select, none⟩, .terminal fun c => .ok (if c.isDigit then some (c.toNat - 48) else none)⟩,
    ⟨⟨7, .repetition, none⟩, .repetition ⟨7⟩ decimal⟩]
  cells := #[.recursive ⟨5⟩, .supplied ⟨8⟩]
  nextId := 8

theorem sums_closed : sums.Closed := closed_of_all rfl rfl

theorem sums_complete : sums.Complete ⟨6⟩ := by
  refine sums_closed.complete ?_ ⟨_, rfl⟩
  intro cell hcell
  match cell, hcell with
  | 0, _ => exact ⟨⟨5⟩, rfl⟩
  | 1, _ => exact ⟨⟨8⟩, rfl⟩

theorem sums_total : sums.Total ⟨6⟩ := by
  refine total_of_all ?_ _
  simp [sums, sumsAtFirst, Form.Total]

/-- The rule for numbers may be made when it is needed first. -/
theorem sums_stage : sumsAtFirst.Stage sums := by
  refine ⟨closed_of_all rfl rfl, ?_, ?_, Nat.le_refl _⟩
  · intro r node hnode
    have hlt : r.node < sumsAtFirst.nodes.size := (Array.getElem?_eq_some_iff.1 hnode).1
    rw [← hnode]
    exact Array.getElem?_append_left hlt
  · intro cell content hcontent
    match cell with
    | 0 => exact Or.inr (Or.inl hcontent)
    | 1 =>
        cases hcontent
        exact Or.inl ⟨(), rfl⟩
    | n + 2 => cases hcontent

end Grammar

end LazyGrammar

import Mathlib.Algebra.Order.BigOperators.Group.List
import LazyGrammar.Proofs.Analysis.Survey

/-!
# LazyGrammar.Proofs.Analysis.Again

**A grammar that has been surveyed is surveyed again with the same result**
(`Grammar.Accepts.again`): the rules are met in the same order and entered with the same shapes,
and this time nothing has to be made.

That a survey is given enough visits is counted in the rules on its stack and in those that the
nodes not yet entered may put there (`pending`): no visit of a rule puts back as much as it takes.
-/

namespace LazyGrammar

variable {τ α σ : Type} {g g' g₀ : Grammar τ α σ} {r root : Rule} {node : Node τ α}
  {form : Form τ α} {shape : Shape}

/-- The rules that a form has a survey visit. -/
def Form.children (g : Grammar τ α σ) : Form τ α → List Rule
  | .reference cell _ => (g.cellRule? cell).toList
  | form => form.parts

theorem Form.length_children_le (g : Grammar τ α σ) (form : Form τ α) :
    (form.children g).length ≤ form.parts.length + 1 := by
  cases form with
  | reference cell weak =>
      change (g.cellRule? cell).toList.length ≤ 1
      cases g.cellRule? cell <;> simp
  | _ => exact Nat.le_succ _

/-- What a survey visits next is used by the rule that it is at. -/
theorem Form.uses_of_mem_children (hnode : g.node? r = some node) {r' : Rule}
    (hr' : r' ∈ node.form.children g) : g.Uses r r' := by
  obtain ⟨info, form⟩ := node
  cases form with
  | reference cell weak =>
      rw [children, Option.mem_toList] at hr'
      unfold Grammar.cellRule? at hr'
      split at hr'
      · next r'' htarget =>
        cases hr'
        exact .target hnode htarget
      · cases hr'
  | _ => exact .part hnode hr'

/-- A form that leads somewhere leads there still, unless its rule has been released. -/
theorem Form.children_precedes (hprecedes : g.Precedes g')
    (hshape : form.shape g false = some shape)
    (hlives : ∀ cell weak, form = .reference cell weak → g'.cells[cell]? ≠ some .released) :
    form.children g' = form.children g := by
  cases form with
  | reference cell weak =>
      simp only [Form.shape] at hshape
      split at hshape
      · next r htarget =>
        have htarget' := (hprecedes.target htarget).resolve_right (hlives cell weak rfl)
        simp only [children, Grammar.cellRule?, htarget, htarget']
      · cases hshape
  | _ => rfl

namespace Survey

variable {s s' t : Survey} {rest : List Rule}

/-! ### Visits -/

/-- A rule that has been entered is left out. -/
theorem step_skip (hstack : s.stack = r :: rest) (hnode : g.node? r = some node)
    (hmet : s.table.contains node.info.id = true) :
    s.step g = .next { s with stack := rest } := by
  simp only [step, hstack, hnode, hmet, if_true]

/-- A rule that has not been entered is entered, if its form has a shape. -/
theorem step_enter (hstack : s.stack = r :: rest) (hnode : g.node? r = some node)
    (hnew : s.table.contains node.info.id = false) (hshape : node.form.shape g false = some shape) :
    s.step g = .next (s.enter node.info shape (node.form.children g) rest) := by
  obtain ⟨info, form⟩ := node
  simp only at hnew
  simp only [step, hstack, hnode, hnew, Bool.false_eq_true, if_false]
  cases form with
  | reference cell weak =>
      simp only [Form.shape] at hshape
      split at hshape
      · next r' htarget =>
        cases hshape
        simp only [htarget, Form.children, Grammar.cellRule?]
        rfl
      · cases hshape
  | _ =>
      cases hshape
      rfl

/-- A visit leaves out a rule that has been entered, or enters one. -/
theorem step_next (h : s.step g = .next s') : ∃ r rest node, s.stack = r :: rest ∧
    g.node? r = some node ∧
    (s.table.contains node.info.id = true ∧ s' = { s with stack := rest } ∨
      s.table.contains node.info.id = false ∧ ∃ shape, node.form.shape g false = some shape ∧
        s' = s.enter node.info shape (node.form.children g) rest) := by
  cases hstack : s.stack with
  | nil => simp [step, hstack] at h
  | cons r rest =>
      cases hnode : g.node? r with
      | none => simp [step, hstack, hnode] at h
      | some node =>
          refine ⟨r, rest, node, rfl, hnode, ?_⟩
          cases hmet : s.table.contains node.info.id with
          | true =>
              rw [step_skip hstack hnode hmet] at h
              cases h
              exact Or.inl ⟨rfl, rfl⟩
          | false =>
              right
              cases hshape : node.form.shape g false with
              | some shape =>
                  rw [step_enter hstack hnode hmet hshape] at h
                  cases h
                  exact ⟨rfl, shape, rfl, rfl⟩
              | none =>
                  obtain ⟨info, form⟩ := node
                  cases form with
                  | reference cell weak =>
                      simp only [Form.shape] at hshape
                      simp only at hmet
                      simp only [step, hstack, hnode, hmet, Bool.false_eq_true, if_false] at h
                      cases htarget : g.target cell <;> simp [htarget] at h hshape
                  | _ => cases hshape

theorem step_finished (h : s.step g = .finished t) : t = s ∧ s.stack = [] := by
  unfold step at h
  split at h
  · next hstack =>
    cases h
    exact ⟨rfl, hstack⟩
  · split at h
    · cases h
    · split at h
      · cases h
      · dsimp only at h
        split at h <;> first
          | cases h
          | split at h <;> cases h

theorem step_waiting {cell : CellId} (h : s.step g = .waiting cell s') : s' = s := by
  unfold step at h
  split at h
  · cases h
  · split at h
    · cases h
    · split at h
      · cases h
      · dsimp only at h
        split at h <;> first
          | cases h
          | split at h <;> cases h
            rfl

/-- Visits lead from one survey to another. -/
def Leads (g : Grammar τ α σ) (s s' : Survey) : Prop :=
  Relation.ReflTransGen (fun s s' => s.step g = .next s') s s'

/-! ### Enough visits -/

/-- How many rules a node may put on the stack, and itself. -/
def weight (node : Node τ α) : Nat := node.form.parts.length + 1

/-- What is left to be visited: the rules on the stack, and what the nodes that have not been
entered may put there. -/
def pending (g : Grammar τ α σ) (s : Survey) : Nat :=
  s.stack.length +
    ((g.nodes.toList.filter fun node => !s.table.contains node.info.id).map weight).sum

theorem pending_lt_visits (g : Grammar τ α σ) (s : Survey) : s.pending g < visits g s := by
  have hfold : ∀ (nodes : List (Node τ α)) (n : Nat),
      nodes.foldl (fun n node => n + node.form.parts.length + 1) n
        = n + (nodes.map weight).sum := by
    intro nodes
    induction nodes with
    | nil => intro n; rfl
    | cons node nodes ih =>
        intro n
        rw [List.foldl_cons, ih, List.map_cons, List.sum_cons, weight]
        omega
  have hle : ((g.nodes.toList.filter fun node => !s.table.contains node.info.id).map weight).sum
      ≤ (g.nodes.toList.map weight).sum :=
    List.Sublist.sum_le_sum (List.filter_sublist.map weight) fun _ _ => Nat.zero_le _
  rw [visits, ← Array.foldl_toList, hfold, pending]
  omega

/-- A filter that leaves out one element more has less to sum up. -/
theorem sum_filter_add_le {A : Type} {p q : A → Bool} {f : A → Nat} {l : List A} {a : A}
    (hqp : ∀ b, q b = true → p b = true) (ha : a ∈ l) (hp : p a = true) (hq : q a = false) :
    ((l.filter q).map f).sum + f a ≤ ((l.filter p).map f).sum := by
  have hle : ∀ l : List A, ((l.filter q).map f).sum ≤ ((l.filter p).map f).sum := fun l =>
    List.Sublist.sum_le_sum ((List.monotone_filter_right l hqp).map f) fun _ _ => Nat.zero_le _
  induction l with
  | nil => cases ha
  | cons b l ih =>
      rcases List.mem_cons.1 ha with rfl | ha
      · rw [List.filter_cons_of_neg (by simp [hq]), List.filter_cons_of_pos hp, List.map_cons,
          List.sum_cons, Nat.add_comm]
        exact Nat.add_le_add_left (hle l) _
      · have hrest := ih ha
        cases hqb : q b with
        | true =>
            rw [List.filter_cons_of_pos hqb, List.filter_cons_of_pos (hqp b hqb)]
            simp only [List.map_cons, List.sum_cons]
            omega
        | false =>
            rw [List.filter_cons_of_neg (by simp [hqb])]
            refine hrest.trans ?_
            cases hpb : p b with
            | true =>
                rw [List.filter_cons_of_pos hpb, List.map_cons, List.sum_cons]
                omega
            | false => rw [List.filter_cons_of_neg (by simp [hpb])]

/-- A visit leaves less to be visited. -/
theorem step_pending (h : s.step g = .next s') : s'.pending g < s.pending g := by
  obtain ⟨r, rest, node, hstack, hnode, ⟨-, rfl⟩ | ⟨hnew, shape, -, rfl⟩⟩ := step_next h
  · simp only [pending, hstack, List.length_cons]
    omega
  · have hmem : node ∈ g.nodes.toList := Array.mem_toList_iff.2 (Array.mem_of_getElem? hnode)
    have hsum := sum_filter_add_le (p := fun node => !s.table.contains node.info.id)
      (q := fun node' => !(s.table.insert node.info.id ⟨node.info, shape⟩).contains node'.info.id)
      (f := weight) (fun node' h => by simp at h ⊢; exact h.2) hmem (by simp [hnew]) (by simp)
    have hchildren := node.form.length_children_le g
    simp only [pending, Survey.enter, hstack, List.length_cons, List.length_append,
      List.length_reverse]
    simp only [weight] at hsum ⊢
    omega

/-- More visits than there is left to be visited make no difference. -/
theorem run_eq_of_pending_lt {m n : Nat} (hm : s.pending g < m) (hn : s.pending g < n) :
    s.run g m = s.run g n := by
  induction m generalizing n s with
  | zero => exact absurd hm (Nat.not_lt_zero _)
  | succ m ih =>
      cases n with
      | zero => exact absurd hn (Nat.not_lt_zero _)
      | succ n =>
          simp only [run]
          cases hstep : s.step g with
          | next s' =>
              have hless := step_pending hstep
              exact ih (by omega) (by omega)
          | _ => rfl

/-- A survey comes to what it comes to after a visit. -/
theorem complete_of_next (h : s.step g = .next s') : s.complete g = s'.complete g := by
  have hless := step_pending h
  have hvisits := pending_lt_visits g s'
  calc s.complete g = s.run g (visits g s' + s.pending g + 1) :=
        run_eq_of_pending_lt (pending_lt_visits g s) (by omega)
    _ = s'.run g (visits g s' + s.pending g) := by simp only [run, h]
    _ = s'.complete g := run_eq_of_pending_lt (by omega) hvisits

/-- A survey that cannot visit a rule has come to what stops it. -/
theorem complete_of_stop (h : ∀ s', s.step g ≠ .next s') : s.complete g = s.step g := by
  have hpos := pending_lt_visits g s
  obtain ⟨n, hn⟩ : ∃ n, visits g s = n + 1 := ⟨visits g s - 1, by omega⟩
  rw [complete, hn, run]
  split
  · next s' hnext => exact absurd hnext (h s')
  · rfl

/-- **A survey that comes to an end is given enough visits for it.** -/
theorem Leads.complete_eq (h : Leads g s t) (hstack : t.stack = []) :
    s.complete g = .finished t := by
  induction h using Relation.ReflTransGen.head_induction_on with
  | refl =>
      have hstep : t.step g = .finished t := by simp only [step, hstack]
      rw [complete_of_stop (by simp [hstep]), hstep]
  | head hstep _ ih => exact (complete_of_next hstep).trans ih

/-! ### The same visits later -/

/-- The rules to be visited are below a root. -/
def Below (s : Survey) (g : Grammar τ α σ) (root : Rule) : Prop := ∀ r ∈ s.stack, g.Reaches root r

/-- A visit is the same in a later grammar. -/
theorem step_again (hprecedes : g.Precedes g') (hg : g.Closed) (hretains : g'.Retains root)
    (hbelow : s.Below g' root) (h : s.step g = .next s') :
    s.step g' = .next s' ∧ s'.Below g' root := by
  obtain ⟨r, rest, node, hstack, hnode, ⟨hmet, rfl⟩ | ⟨hnew, shape, hshape, rfl⟩⟩ := step_next h
  · refine ⟨step_skip hstack (hprecedes.node hnode) hmet, fun r' hr' => hbelow r' ?_⟩
    rw [hstack]
    exact List.mem_cons_of_mem _ hr'
  · have hreach : g'.Reaches root r := hbelow r (hstack ▸ List.mem_cons_self ..)
    have hnode' := hprecedes.node hnode
    have hlives : ∀ cell weak, node.form = .reference cell weak →
        g'.cells[cell]? ≠ some .released := by
      intro cell weak hform
      obtain ⟨info, form⟩ := node
      cases hform
      exact hretains r info cell weak hreach hnode'
    have hchildren := Form.children_precedes hprecedes hshape hlives
    have hshape' : node.form.shape g' false = some shape := by
      rcases Form.HasShape.precedes (Or.inl hshape) hg hnode hprecedes with hshape' | hreleased
      · exact hshape'
      · obtain ⟨cell, weak, _, hform, -, hreleased⟩ := hreleased
        exact absurd hreleased (hlives cell weak hform)
    refine ⟨hchildren ▸ step_enter hstack hnode' hnew hshape', fun r' hr' => ?_⟩
    rcases List.mem_append.1 hr' with hchild | hrest
    · rw [List.mem_reverse, ← hchildren] at hchild
      exact hreach.tail (Form.uses_of_mem_children hnode' hchild)
    · exact hbelow r' (hstack ▸ List.mem_cons_of_mem _ hrest)

/-- What a run in an earlier grammar comes to, it comes to in a later one. -/
theorem run_again (hprecedes : g.Precedes g') (hg : g.Closed) (hretains : g'.Retains root)
    (hbelow : s.Below g' root) (n : Nat) :
    (∀ t, s.run g n = .finished t → Leads g' s t ∧ t.stack = []) ∧
    ∀ cell s', s.run g n = .waiting cell s' → Leads g' s s' ∧ s'.Below g' root := by
  induction n generalizing s with
  | zero => exact ⟨nofun, nofun⟩
  | succ n ih =>
      unfold run
      split
      · next s₁ hstep =>
        obtain ⟨hstep', hbelow'⟩ := step_again hprecedes hg hretains hbelow hstep
        obtain ⟨hfinished, hwaiting⟩ := ih hbelow'
        exact ⟨fun t ht => (hfinished t ht).imp_left (.head hstep'),
          fun cell s' hs' => (hwaiting cell s' hs').imp_left (.head hstep')⟩
      · constructor
        · intro t ht
          obtain ⟨rfl, hstack⟩ := step_finished ht
          exact ⟨.refl, hstack⟩
        · intro cell s' hs'
          obtain rfl := step_waiting hs'
          exact ⟨.refl, hbelow⟩

/-- A survey that had to wait for rules finishes at once when they are all there. -/
theorem Finishes.again (h : Finishes g t g₀ s) (hg₀ : g₀.Consistent) (hevolves : g.Evolves g')
    (hretains : g'.Retains root) (hbelow : s.Below g' root) : Leads g' s t ∧ t.stack = [] := by
  induction h with
  | @finished g₀ s n hrun hfirst =>
      have hprecedes := Grammar.Evolves.precedes (hfirst.trans hevolves)
      exact (run_again hprecedes hg₀.closed hretains hbelow n).1 t hrun
  | @waiting g₀ g₁ s s' cell n hrun hfirst hlater ih =>
      have hprecedes := Grammar.Evolves.precedes ((hfirst.trans hlater.evolves).trans hevolves)
      obtain ⟨hleads, hbelow'⟩ :=
        (run_again hprecedes hg₀.closed hretains hbelow n).2 cell s' hrun
      exact (ih (hfirst.consistent hg₀) hbelow').imp_left hleads.trans

end Survey

/-- **A rule that has been analysed is analysed again with the same result**, as long as nothing
is released below it. -/
theorem Grammar.Accepts.again {a : Analysis} (h : g.Accepts root a) :
    ∃ s, a = .ofSurvey s ∧ ∀ g' : Grammar τ α σ, g.Evolves g' → g'.Retains root →
      (Survey.start root).complete g' = .finished s := by
  obtain ⟨g₀, s, hbuilt, -, hfinishes, rfl⟩ := h
  refine ⟨s, rfl, fun g' hevolves hretains => ?_⟩
  have hbelow : (Survey.start root).Below g' root := by
    intro r hr
    rw [List.mem_singleton.1 hr]
    exact .refl
  obtain ⟨hleads, hstack⟩ := hfinishes.again hbuilt.consistent hevolves hretains hbelow
  exact hleads.complete_eq hstack

end LazyGrammar

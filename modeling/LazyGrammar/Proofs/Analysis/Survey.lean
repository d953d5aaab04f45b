import LazyGrammar.Proofs.Analysis.Solution
import LazyGrammar.Proofs.Rule.Built

/-!
# LazyGrammar.Proofs.Analysis.Survey

**A finished survey has the shapes of the grammar**, for every rule below the root.

Design points:

* A survey may have to wait for rules to be made and then goes on in a later grammar. What it
  has found by then stays right, except that a recursive rule which it has been through may be
  released: a reference to it leads nowhere any more, but it is still in the table.
* The table has one entry for an identity. In a grammar that is built it is right for every
  node with that identity (`Form.Agree`).
-/

namespace LazyGrammar

variable {τ α σ : Type}

namespace Grammar

/-- The identity of a rule. -/
def idOf (g : Grammar τ α σ) (r : Rule) : RuleId := (g.info r).id

variable {g g' : Grammar τ α σ} {r : Rule} {node : Node τ α}

theorem idOf_eq (hnode : g.node? r = some node) : g.idOf r = node.info.id := by
  simp [idOf, info, hnode]

end Grammar

/-! ### Shapes of forms -/

/-- The shape of a form, where the end of the input may or may not count as nothing. A
reference that leads to no rule has none. -/
def Form.shape (g : Grammar τ α σ) (ended : Bool) : Form τ α → Option Shape
  | .terminal _ => some (.leaf false)
  | .epsilon _ => some (.leaf true)
  | .endOfInput _ => some (.leaf ended)
  | .map inner _ => some (.chain [g.idOf inner])
  | .repetition item _ => some (.chain [g.idOf item])
  | .reference cell _ =>
    match g.target cell with
    | .rule r => some (.chain [g.idOf r])
    | _ => none
  | .oneOf first others => some (.choice ((first :: others).map g.idOf))
  | .sequence first others _ => some (.chain ((first :: others).map g.idOf))

/-- A form has a shape, or it is a reference that had one before its rule was released. -/
def Form.HasShape (g : Grammar τ α σ) (form : Form τ α) (shape : Shape) : Prop :=
  form.shape g false = some shape ∨
    ∃ cell weak id, form = .reference cell weak ∧ shape = .chain [id] ∧
      g.cells[cell]? = some .released

/-- The shapes of the rules of a grammar for which `known` holds. -/
def Grammar.shapes (g : Grammar τ α σ) (known : RuleId → Prop) (ended : Bool) : Shapes :=
  fun id shape => known id ∧
    ∃ r node, g.node? r = some node ∧ node.info.id = id ∧ node.form.shape g ended = some shape

/-- No recursive rule that is referred to below a rule has been released. -/
def Grammar.Retains (g : Grammar τ α σ) (root : Rule) : Prop :=
  ∀ r info cell weak, g.Reaches root r → g.node? r = some ⟨info, .reference cell weak⟩ →
    g.cells[cell]? ≠ some .released

variable {g g' : Grammar τ α σ} {r root : Rule} {node : Node τ α} {form form' : Form τ α}
  {shape : Shape} {info : RuleInfo} {cell : CellId} {weak : Bool}

theorem Grammar.target_of_released (h : g.cells[cell]? = some .released) :
    g.target cell = .fault .unboundSelf := by
  simp [Grammar.target, h, Cell.target]

theorem Grammar.Precedes.idOf_eq (h : g.Precedes g') (hr : g.Has r) : g'.idOf r = g.idOf r := by
  obtain ⟨node, hnode⟩ := hr
  rw [g.idOf_eq hnode, g'.idOf_eq (h.node hnode)]

theorem Form.Agree.shape_eq (h : form.Agree form') (ended : Bool) :
    form.shape g ended = form'.shape g ended := by
  rcases h with rfl | ⟨cell, weak, weak', rfl, rfl⟩
  · rfl
  · rfl

theorem Form.HasShape.of_agree (h : form.HasShape g shape) (hagree : form.Agree form') :
    form'.HasShape g shape := by
  rcases h with h | ⟨cell, weak, id, rfl, rfl, hreleased⟩
  · exact Or.inl (hagree.shape_eq false ▸ h)
  · rcases hagree with rfl | ⟨cell', weak', weak'', heq, rfl⟩
    · exact Or.inr ⟨cell, weak, id, rfl, rfl, hreleased⟩
    · cases heq
      exact Or.inr ⟨cell, weak'', id, rfl, rfl, hreleased⟩

/-- A form with two shapes has the same one twice. -/
theorem Form.HasShape.eq_of_shape (h : form.HasShape g shape) {shape' : Shape}
    (h' : form.shape g false = some shape') : shape' = shape := by
  rcases h with h | ⟨cell, weak, id, rfl, rfl, hreleased⟩
  · exact Option.some.inj (h'.symm.trans h)
  · simp only [Form.shape, Grammar.target_of_released hreleased] at h'
    cases h'

theorem Form.shape_reference (htarget : g.target cell = .rule r) (weak ended : Bool) :
    (Form.reference cell weak : Form τ α).shape g ended = some (.chain [g.idOf r]) := by
  simp only [Form.shape, htarget]

/-- Only the rule for the end of the input has another shape there. -/
theorem Form.shape_eq_of_ne_endOfInput (hform : ∀ value, form ≠ .endOfInput value)
    (ended : Bool) : form.shape g ended = form.shape g false := by
  cases form with
  | endOfInput value => exact absurd rfl (hform value)
  | _ => rfl

/-- What a form names directly is in its shape. -/
theorem Form.idOf_mem_children {ended : Bool} (h : form.shape g ended = some shape)
    (hpart : r ∈ form.parts) : g.idOf r ∈ shape.children := by
  cases form with
  | terminal accept => cases hpart
  | epsilon value => cases hpart
  | endOfInput value => cases hpart
  | reference cell weak => cases hpart
  | map inner f =>
      cases h
      exact List.mem_map_of_mem hpart
  | repetition item collect =>
      cases h
      exact List.mem_map_of_mem hpart
  | oneOf first others =>
      cases h
      exact List.mem_map_of_mem hpart
  | sequence first others build =>
      cases h
      exact List.mem_map_of_mem hpart

/-- What a form names directly decides its shape, unless it is a reference. -/
theorem Form.shape_congr (hform : ∀ cell weak, form ≠ .reference cell weak) {ended : Bool}
    (hparts : ∀ r' ∈ form.parts, g'.idOf r' = g.idOf r') :
    form.shape g' ended = form.shape g ended := by
  have hmap : form.parts.map g'.idOf = form.parts.map g.idOf := List.map_congr_left hparts
  cases form with
  | terminal accept => rfl
  | epsilon value => rfl
  | endOfInput value => rfl
  | map inner f => exact congrArg (some ∘ Shape.chain) hmap
  | repetition item collect => exact congrArg (some ∘ Shape.chain) hmap
  | reference cell weak => exact absurd rfl (hform cell weak)
  | oneOf first others => exact congrArg (some ∘ Shape.choice) hmap
  | sequence first others build => exact congrArg (some ∘ Shape.chain) hmap

theorem Form.HasShape.precedes (h : form.HasShape g shape) (hg : g.Closed)
    (hnode : g.node? r = some ⟨info, form⟩) (hprecedes : g.Precedes g') :
    form.HasShape g' shape := by
  rcases h with h | ⟨cell, weak, id, rfl, rfl, hreleased⟩
  · by_cases hform : ∃ cell weak, form = .reference cell weak
    · obtain ⟨cell, weak, rfl⟩ := hform
      simp only [Form.shape] at h
      split at h
      · next r' htarget =>
        cases h
        rcases hprecedes.target htarget with htarget' | hreleased
        · left
          rw [← hprecedes.idOf_eq (hg.target _ _ htarget)]
          exact shape_reference htarget' weak false
        · exact Or.inr ⟨cell, weak, _, rfl, rfl, hreleased⟩
      · cases h
    · left
      rw [← h]
      refine shape_congr (fun cell weak heq => hform ⟨cell, weak, heq⟩) ?_
      exact fun r' hr' => hprecedes.idOf_eq (hg.part _ _ hnode r' hr')
  · exact Or.inr ⟨cell, weak, id, rfl, rfl, hprecedes.released hreleased⟩

/-! ### Surveys under way -/

namespace Survey

variable {s s' : Survey} {id : RuleId}

/-- A survey has been to a rule, or will go there. -/
def Meets (s : Survey) (g : Grammar τ α σ) (id : RuleId) : Prop :=
  id ∈ s.ids ∨ ∃ r ∈ s.stack, g.idOf r = id

/-- What holds of a survey under way. -/
structure Maps (s : Survey) (g : Grammar τ α σ) (root : Rule) : Prop where
  mem_ids : ∀ id, id ∈ s.ids ↔ s.table.contains id = true
  stack : ∀ r ∈ s.stack, g.Has r
  root : g.Has root ∧ s.Meets g (g.idOf root)
  entry : ∀ {id shape}, s.shapes id shape →
    (∃ r node, g.node? r = some node ∧ node.info.id = id ∧ node.form.HasShape g shape) ∧
      ∀ child ∈ shape.children, s.Meets g child

theorem Maps.start (hr : g.Has root) : (start root).Maps g root := by
  constructor
  · simp [Survey.start]
  · intro r hmem
    cases List.mem_singleton.1 hmem
    exact hr
  · exact ⟨hr, Or.inr ⟨root, List.mem_singleton.2 rfl, rfl⟩⟩
  · intro id shape h
    obtain ⟨info, h⟩ := h
    simp [Survey.start] at h

/-- A survey that has found the shapes of the rules before stays right. -/
theorem Maps.precedes (h : s.Maps g root) (hg : g.Closed) (hprecedes : g.Precedes g') :
    s.Maps g' root := by
  have hmeets : ∀ {id}, s.Meets g id → s.Meets g' id := by
    intro id hid
    refine hid.imp_right ?_
    intro hid
    obtain ⟨r, hr, rfl⟩ := hid
    exact ⟨r, hr, hprecedes.idOf_eq (h.stack r hr)⟩
  have hhas : ∀ {r}, g.Has r → g'.Has r := by
    intro r hr
    obtain ⟨node, hnode⟩ := hr
    exact ⟨node, hprecedes.node hnode⟩
  constructor
  · exact h.mem_ids
  · exact fun r hr => hhas (h.stack r hr)
  · rw [hprecedes.idOf_eq h.root.1]
    exact ⟨hhas h.root.1, hmeets h.root.2⟩
  · intro id shape hshape
    obtain ⟨⟨r, node, hnode, hid, hform⟩, hchildren⟩ := h.entry hshape
    exact ⟨⟨r, node, hprecedes.node hnode, hid, hform.precedes hg hnode hprecedes⟩,
      fun child hchild => hmeets (hchildren child hchild)⟩

/-- A rule whose identity has been met before is left out. -/
theorem Maps.skip (h : s.Maps g root) {rest : List Rule} (hstack : s.stack = r :: rest)
    (hmet : g.idOf r ∈ s.ids) : Maps { s with stack := rest } g root := by
  have hmeets : ∀ {id}, s.Meets g id → Meets { s with stack := rest } g id := by
    intro id hid
    rcases hid with hid | ⟨r', hr', rfl⟩
    · exact Or.inl hid
    · rw [hstack] at hr'
      rcases List.mem_cons.1 hr' with rfl | hrest
      · exact Or.inl hmet
      · exact Or.inr ⟨r', hrest, rfl⟩
  constructor
  · exact h.mem_ids
  · exact fun r' hr' => h.stack r' (hstack ▸ List.mem_cons_of_mem _ hr')
  · exact h.root.imp_right hmeets
  · exact fun hshape => (h.entry hshape).imp_right fun hchildren child hchild =>
      hmeets (hchildren child hchild)

/-- A rule whose identity is new is entered with the shape of its form. -/
theorem Maps.enter (h : s.Maps g root) {rest children : List Rule} (hstack : s.stack = r :: rest)
    (hnode : g.node? r = some ⟨info, form⟩) (hform : form.shape g false = some shape)
    (hchildren : ∀ r' ∈ children, g.Has r')
    (hids : ∀ child ∈ shape.children, ∃ r' ∈ children, g.idOf r' = child) :
    (s.enter info shape children rest).Maps g root := by
  have hmeets : ∀ {id}, s.Meets g id → (s.enter info shape children rest).Meets g id := by
    intro id hid
    rcases hid with hid | ⟨r', hr', rfl⟩
    · exact Or.inl (List.mem_cons_of_mem _ hid)
    · rw [hstack] at hr'
      rcases List.mem_cons.1 hr' with rfl | hrest
      · exact Or.inl (List.mem_cons.2 (Or.inl (g.idOf_eq hnode)))
      · exact Or.inr ⟨r', List.mem_append_right _ hrest, rfl⟩
  constructor
  · intro id
    simp only [Survey.enter, List.mem_cons, Std.HashMap.contains_insert, Bool.or_eq_true,
      beq_iff_eq, h.mem_ids]
    exact or_congr_left eq_comm
  · intro r' hr'
    rcases List.mem_append.1 hr' with hnew | hold
    · exact hchildren r' (List.mem_reverse.1 hnew)
    · exact h.stack r' (hstack ▸ List.mem_cons_of_mem _ hold)
  · exact h.root.imp_right hmeets
  · intro id shape' hshape
    obtain ⟨info', hentry⟩ := hshape
    simp only [Survey.enter, Std.HashMap.getElem?_insert] at hentry
    split at hentry
    · next heq =>
      cases hentry
      refine ⟨⟨r, _, hnode, beq_iff_eq.1 heq, Or.inl hform⟩, ?_⟩
      intro child hchild
      obtain ⟨r', hr', rfl⟩ := hids child hchild
      exact Or.inr ⟨r', List.mem_append_left _ (List.mem_reverse.2 hr'), rfl⟩
    · refine (h.entry ⟨info', hentry⟩).imp_right ?_
      exact fun hchildren child hchild => hmeets (hchildren child hchild)

end Survey

/-- What a step of a survey that maps a grammar comes to. -/
def SurveyStep.Maps (g : Grammar τ α σ) (root : Rule) : SurveyStep → Prop
  | .next s | .waiting _ s => s.Maps g root
  | .finished s => s.Maps g root ∧ s.stack = []
  | .fault _ | .circular => True

namespace Survey

variable {s s' t : Survey} {id : RuleId}

theorem step_maps (hg : g.Closed) (h : s.Maps g root) : (s.step g).Maps g root := by
  unfold step
  split
  · next hstack => exact ⟨h, hstack⟩
  · next r rest hstack =>
    split
    · trivial
    · next info form hnode =>
      split
      · next hcontains =>
        refine h.skip hstack ?_
        rw [g.idOf_eq hnode, h.mem_ids, hcontains]
      · -- a form that is no reference puts its parts on the stack
        have hparts : ∀ {shape}, form.shape g false = some shape →
            shape.children = form.parts.map g.idOf →
            (s.enter info shape form.parts rest).Maps g root := by
          intro shape hform hids
          refine h.enter hstack hnode hform (hg.part _ _ hnode) ?_
          intro child hchild
          rw [hids] at hchild
          exact List.mem_map.1 hchild
        cases form with
        | terminal accept => exact hparts rfl rfl
        | epsilon value => exact hparts rfl rfl
        | endOfInput value => exact hparts rfl rfl
        | map inner f => exact hparts rfl rfl
        | repetition item collect => exact hparts rfl rfl
        | oneOf first others => exact hparts rfl rfl
        | sequence first others build => exact hparts rfl rfl
        | reference cell weak =>
            dsimp only
            split
            · next r' htarget =>
              refine h.enter hstack hnode ?_ ?_ ?_
              · exact Form.shape_reference htarget weak false
              · intro r'' hr''
                cases List.mem_singleton.1 hr''
                exact hg.target _ _ htarget
              · intro child hchild
                exact ⟨r', List.mem_singleton.2 rfl, (List.mem_singleton.1 hchild).symm⟩
            · trivial
            · exact h
            · trivial

theorem run_maps (hg : g.Closed) (n : Nat) (h : s.Maps g root) : (s.run g n).Maps g root := by
  induction n generalizing s with
  | zero => exact h
  | succ n ih =>
      have hstep := step_maps hg h
      unfold run
      split
      · next s' hnext =>
        rw [hnext] at hstep
        exact ih hstep
      · exact hstep

/-! ### Finished surveys -/

/-- A survey that starts in one grammar, and goes on in a later one whenever it has had to wait
for a rule, is finished by the time of `g`. -/
inductive Finishes (g : Grammar τ α σ) (t : Survey) : Grammar τ α σ → Survey → Prop
  | finished {g₀ : Grammar τ α σ} {s : Survey} {n : Nat} (hrun : s.run g₀ n = .finished t)
      (hevolves : g₀.Evolves g) : Finishes g t g₀ s
  | waiting {g₀ g₁ : Grammar τ α σ} {s s' : Survey} {cell : CellId} {n : Nat}
      (hrun : s.run g₀ n = .waiting cell s') (hevolves : g₀.Evolves g₁)
      (later : Finishes g t g₁ s') : Finishes g t g₀ s

theorem Finishes.evolves {g₀ : Grammar τ α σ} (h : Finishes g t g₀ s) : g₀.Evolves g := by
  induction h with
  | finished _ hevolves => exact hevolves
  | waiting _ hevolves _ ih => exact hevolves.trans ih

theorem Finishes.maps {g₀ : Grammar τ α σ} (h : Finishes g t g₀ s) (hg₀ : g₀.Consistent)
    (hs : s.Maps g₀ root) : t.Maps g root ∧ t.stack = [] := by
  induction h with
  | @finished g₀ s n hrun hevolves =>
      have hmaps := run_maps hg₀.closed n hs
      rw [hrun] at hmaps
      exact ⟨hmaps.1.precedes hg₀.closed hevolves.precedes, hmaps.2⟩
  | @waiting g₀ g₁ s s' cell n hrun hevolves _ ih =>
      have hmaps := run_maps hg₀.closed n hs
      rw [hrun] at hmaps
      exact ih (hevolves.consistent hg₀) (hmaps.precedes hg₀.closed hevolves.precedes)

/-- What holds of a finished survey of a grammar that is built. -/
structure Covers (s : Survey) (g : Grammar τ α σ) (root : Rule) : Prop where
  closed : s.Closed
  root : g.idOf root ∈ s.ids
  node : ∀ {id}, id ∈ s.ids → ∃ r node, g.node? r = some node ∧ node.info.id = id
  shape : ∀ {r node}, g.node? r = some node → node.info.id ∈ s.ids →
    ∃ shape, s.shapes node.info.id shape ∧ node.form.HasShape g shape

theorem Maps.covers (h : s.Maps g root) (hstack : s.stack = []) (hg : g.Consistent) :
    s.Covers g root := by
  have hmeets : ∀ {id}, s.Meets g id → id ∈ s.ids := by
    intro id hid
    rcases hid with hid | ⟨r, hr, -⟩
    · exact hid
    · rw [hstack] at hr
      cases hr
  have hshapes : ∀ {id}, id ∈ s.ids → ∃ shape, s.shapes id shape := by
    intro id hid
    rw [h.mem_ids, Std.HashMap.contains_eq_isSome_getElem?] at hid
    obtain ⟨⟨info, shape⟩, hentry⟩ := Option.isSome_iff_exists.1 hid
    exact ⟨shape, info, hentry⟩
  constructor
  · exact ⟨h.mem_ids, fun hshape child hchild => hmeets ((h.entry hshape).2 child hchild)⟩
  · exact hmeets h.root.2
  · intro id hid
    obtain ⟨shape, hshape⟩ := hshapes hid
    obtain ⟨⟨r, node, hnode, hsame, -⟩, -⟩ := h.entry hshape
    exact ⟨r, node, hnode, hsame⟩
  · intro r node hnode hid
    obtain ⟨shape, hshape⟩ := hshapes hid
    obtain ⟨⟨r', node', hnode', hsame, hform⟩, -⟩ := h.entry hshape
    exact ⟨shape, hshape, hform.of_agree (hg.agree hnode' hnode hsame)⟩

theorem shapes_eq {shape' : Shape} (h : s.shapes id shape) (h' : s.shapes id shape') :
    shape' = shape := by
  obtain ⟨info, h⟩ := h
  obtain ⟨info', h'⟩ := h'
  rw [h] at h'
  cases h'
  rfl

namespace Covers

variable {r' : Rule}

/-- The shape of a form is in the table. -/
theorem shapes_of_form (h : s.Covers g root) (hnode : g.node? r = some node)
    (hid : node.info.id ∈ s.ids) (hform : node.form.shape g false = some shape) :
    s.shapes node.info.id shape := by
  obtain ⟨shape', hshape', hform'⟩ := h.shape hnode hid
  rw [hform'.eq_of_shape hform]
  exact hshape'

theorem shapes_of_shapes (h : s.Covers g root) (hshape : g.shapes (· ∈ s.ids) false id shape) :
    s.shapes id shape := by
  obtain ⟨hid, r, node, hnode, rfl, hform⟩ := hshape
  exact h.shapes_of_form hnode hid hform

theorem part (h : s.Covers g root) (hnode : g.node? r = some node) (hid : node.info.id ∈ s.ids)
    (hpart : r' ∈ node.form.parts) : g.idOf r' ∈ s.ids := by
  obtain ⟨shape, hshape, hform⟩ := h.shape hnode hid
  refine h.closed.child hshape _ ?_
  rcases hform with hform | ⟨cell, weak, id, hreference, -, -⟩
  · exact Form.idOf_mem_children hform hpart
  · rw [hreference] at hpart
    cases hpart

/-- What a reference leads to is in the table, and nothing is left to be made. -/
theorem target (h : s.Covers g root) (hnode : g.node? r = some ⟨info, .reference cell weak⟩)
    (hid : info.id ∈ s.ids) :
    (∃ r', g.target cell = .rule r' ∧ g.idOf r' ∈ s.ids) ∨ g.cells[cell]? = some .released := by
  obtain ⟨shape, hshape, hform⟩ := h.shape hnode hid
  rcases hform with hform | ⟨cell', weak', id, hreference, -, hreleased⟩
  · simp only [Form.shape] at hform
    split at hform
    · next r' htarget =>
      cases hform
      exact Or.inl ⟨r', htarget, h.closed.child hshape _ (List.mem_singleton.2 rfl)⟩
    · cases hform
  · cases hreference
    exact Or.inr hreleased

theorem of_uses (h : s.Covers g root) (hid : g.idOf r ∈ s.ids) (hu : g.Uses r r') :
    g.idOf r' ∈ s.ids := by
  cases hu with
  | part hnode hpart => exact h.part hnode (g.idOf_eq hnode ▸ hid) hpart
  | target hnode htarget =>
      rcases h.target hnode (g.idOf_eq hnode ▸ hid) with ⟨r'', htarget', hid'⟩ | hreleased
      · rw [htarget] at htarget'
        cases htarget'
        exact hid'
      · rw [g.target_of_released hreleased] at htarget
        cases htarget

/-- A rule that has been surveyed is complete, unless a recursive rule has been released. -/
theorem complete (h : s.Covers g root) (hg : g.Closed) (hretains : g.Retains r) (hr : g.Has r)
    (hid : g.idOf r ∈ s.ids) : g.Complete r := by
  intro r' hreach
  have hids : g.idOf r' ∈ s.ids := by
    induction hreach with
    | refl => exact hid
    | tail _ hu ih => exact h.of_uses ih hu
  obtain ⟨⟨info, form⟩, hnode⟩ := hg.has_of_reaches hr hreach
  refine ⟨info, form, hnode, ?_⟩
  intro cell weak hform
  subst hform
  rw [g.idOf_eq hnode] at hids
  rcases h.target hnode hids with ⟨r'', htarget, -⟩ | hreleased
  · exact ⟨r'', htarget⟩
  · exact absurd hreleased (hretains _ _ _ _ hreach hnode)

end Covers

end Survey

/-- The analysis that a root of a grammar was given, by the time that operations have turned the
grammar into `g`: its survey found no rule missing. -/
def Grammar.Accepts (g : Grammar τ α σ) (root : Rule) (a : Analysis) : Prop :=
  ∃ g₀ s, g₀.Built ∧ g₀.Has root ∧ Survey.Finishes g s g₀ (.start root) ∧ a = .ofSurvey s

namespace Grammar.Accepts

variable {a : Analysis}

theorem consistent (h : g.Accepts root a) : g.Consistent := by
  obtain ⟨g₀, s, hbuilt, -, hfinishes, -⟩ := h
  exact hfinishes.evolves.consistent hbuilt.consistent

theorem covers (h : g.Accepts root a) : ∃ s, a = .ofSurvey s ∧ s.Covers g root ∧ g.Has root := by
  have hg := h.consistent
  obtain ⟨g₀, s, hbuilt, hroot, hfinishes, rfl⟩ := h
  obtain ⟨hmaps, hstack⟩ := hfinishes.maps hbuilt.consistent (Survey.Maps.start hroot)
  exact ⟨s, rfl, hmaps.covers hstack hg, hmaps.root.1⟩

/-- Below the root everything is there, as long as its recursive rules are kept. -/
theorem complete (h : g.Accepts root a) (hretains : g.Retains root) : g.Complete root := by
  have hclosed := h.consistent.closed
  obtain ⟨s, -, hs, hroot⟩ := h.covers
  exact hs.complete hclosed hretains hroot hs.root

end Grammar.Accepts

/-! ### A rule that starts again -/

namespace Grammar

open Survey

variable {kind kind' : RuleKind} {guard other : Form Char Nat} {s : Survey}

theorem stuttering_accepts : ∃ a, stuttering.Accepts ⟨5⟩ a := by
  have hrun : ∃ s, (Survey.start ⟨5⟩).run stuttering 8 = .finished s := by
    simp [Survey.run, Survey.step, Survey.enter, Survey.start, stuttering, again, turn, node?, info,
      Grammar.target, Cell.target, Form.parts]
  obtain ⟨s, hrun⟩ := hrun
  exact ⟨_, stuttering, s, stuttering_built, ⟨_, rfl⟩, .finished hrun .refl, rfl⟩

theorem lingering_accepts : ∃ a, lingering.Accepts ⟨5⟩ a := by
  have hrun : ∃ s, (Survey.start ⟨5⟩).run lingering 8 = .finished s := by
    simp [Survey.run, Survey.step, Survey.enter, Survey.start, lingering, again, turn, node?, info,
      Grammar.target, Cell.target, Form.parts]
  obtain ⟨s, hrun⟩ := hrun
  exact ⟨_, lingering, s, lingering_built, ⟨_, rfl⟩, .finished hrun .refl, rfl⟩

/-- What a survey of a rule that starts again has found. -/
theorem again_shapes (h : s.Covers (again kind guard kind' other) ⟨5⟩) {b b' : Bool}
    (hguard : guard.shape (again kind guard kind' other) false = some (.leaf b))
    (hother : other.shape (again kind guard kind' other) false = some (.leaf b'))
    (id : RuleId) (shape : Shape) : s.shapes id shape ↔ (id, shape) ∈
      [(0, .chain [4]), (1, .leaf b), (2, .chain [1, 0]), (3, .leaf b'), (4, .choice [2, 3])] := by
  have hroot : s.shapes 0 (.chain [4]) := h.shapes_of_form (r := ⟨5⟩) rfl h.root rfl
  have hchoice : s.shapes 4 (.choice [2, 3]) :=
    h.shapes_of_form (r := ⟨4⟩) rfl (h.closed.child hroot 4 (by simp [Shape.children])) rfl
  have hturn : s.shapes 2 (.chain [1, 0]) :=
    h.shapes_of_form (r := ⟨2⟩) rfl (h.closed.child hchoice 2 (by simp [Shape.children])) rfl
  have hleaf : s.shapes 1 (.leaf b) :=
    h.shapes_of_form (r := ⟨1⟩) rfl (h.closed.child hturn 1 (by simp [Shape.children])) hguard
  have hleaf' : s.shapes 3 (.leaf b') :=
    h.shapes_of_form (r := ⟨3⟩) rfl (h.closed.child hchoice 3 (by simp [Shape.children])) hother
  constructor
  · intro hshape
    obtain ⟨r, node, hnode, rfl⟩ := h.node (h.closed.mem_of_shape hshape)
    have hmem := Array.mem_toList_iff.2 (Array.mem_of_getElem? hnode)
    simp only [again, List.mem_cons, List.not_mem_nil, or_false] at hmem
    rcases hmem with rfl | rfl | rfl | rfl | rfl | rfl
    · simp [shapes_eq hroot hshape]
    · simp [shapes_eq hleaf hshape]
    · simp [shapes_eq hturn hshape]
    · simp [shapes_eq hleaf' hshape]
    · simp [shapes_eq hchoice hshape]
    · simp [shapes_eq hroot hshape]
  · intro hmem
    simp only [List.mem_cons, Prod.mk.injEq, List.not_mem_nil, or_false] at hmem
    rcases hmem with ⟨rfl, rfl⟩ | ⟨rfl, rfl⟩ | ⟨rfl, rfl⟩ | ⟨rfl, rfl⟩ | ⟨rfl, rfl⟩
    · exact hroot
    · exact hleaf
    · exact hturn
    · exact hleaf'
    · exact hchoice

end Grammar

end LazyGrammar

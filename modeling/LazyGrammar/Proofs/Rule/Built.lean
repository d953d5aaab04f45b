import LazyGrammar.Proofs.Rule.Kept
import LazyGrammar.Rule.Combinators

/-!
# LazyGrammar.Proofs.Rule.Built

**Grammars as they are built**: by operations on an empty one, in any order.

Design points:

* A graph as such may be anything. What the operations leave out is stated here once, as an
  invariant (`Consistent`) that each of them keeps. Nodes that share an identity are one rule, so
  an identity may stand for the rule. The rule for one item or more of a repetition is handed to
  nobody: it only stands in the choice that the repetition makes, after an alternative that
  matches nothing.
* A session goes on while a grammar is in use. What is known of a grammar stays known of the ones
  that it turns into (`Precedes`), except that recursive rules may be released.
-/

namespace LazyGrammar

variable {τ α σ β : Type}

/-! ### Forms -/

/-- Whether a form is that of one item or more. -/
def Form.isRun : Form τ α → Bool
  | .repetition _ _ => true
  | _ => false

/-- Whether a form can be given to a new rule as it is. -/
def Form.isPlain : Form τ α → Bool
  | .repetition _ _ | .reference _ _ => false
  | _ => true

theorem Form.isRun_of_isPlain {form : Form τ α} (h : form.isPlain = true) : form.isRun = false := by
  cases form with
  | repetition item collect => cases h
  | _ => rfl

/-- The forms of nodes for one rule: a rule and its self reference differ in what they keep. -/
def Form.Agree (form form' : Form τ α) : Prop :=
  form = form' ∨
    ∃ cell weak weak', form = .reference cell weak ∧ form' = .reference cell weak'

namespace Form.Agree

variable {form form' : Form τ α}

theorem refl (form : Form τ α) : form.Agree form := Or.inl rfl

theorem symm (h : form.Agree form') : form'.Agree form := by
  rcases h with rfl | ⟨cell, weak, weak', rfl, rfl⟩
  · exact refl _
  · exact Or.inr ⟨cell, weak', weak, rfl, rfl⟩

theorem reference {cell : CellId} {weak : Bool} (h : form.Agree (.reference cell weak))
    (weak' : Bool) : form.Agree (.reference cell weak') := by
  rcases h with rfl | ⟨cell', w, w', rfl, heq⟩
  · exact Or.inr ⟨cell, weak, weak', rfl, rfl⟩
  · cases heq
    exact Or.inr ⟨cell, w, weak', rfl, rfl⟩

theorem isRun_eq (h : form.Agree form') : form.isRun = form'.isRun := by
  rcases h with rfl | ⟨cell, weak, weak', rfl, rfl⟩ <;> rfl

end Form.Agree

namespace Grammar

/-! ### Operations -/

/-- The grammar after an operation. -/
def after (change : StateM (Grammar τ α σ) β) (g : Grammar τ α σ) : Grammar τ α σ :=
  (change.run g).2

/-- A rule that may be used to make others. -/
def Usable (g : Grammar τ α σ) (r : Rule) : Prop :=
  ∃ node, g.node? r = some node ∧ node.form.isRun = false

/-- One operation turns a grammar into another one. A supplier does more of them between the
start and the end of its run. -/
inductive Change (g : Grammar τ α σ) : Grammar τ α σ → Prop
  | make {kind : RuleKind} {form : Form τ α} (hform : form.isPlain = true)
      (hparts : ∀ r ∈ form.parts, g.Usable r) : Change g (after (make kind form) g)
  | repetition {item : Rule} {unit : α} {collect : List α → α} (hitem : g.Usable item) :
      Change g (after (repetition item unit collect) g)
  | labelled {r : Rule} {label : String} (hr : g.Usable r) : Change g (after (labelled r label) g)
  | declare : Change g (after declare g)
  | deferred {supplier : σ} : Change g (after (deferred supplier) g)
  | openRecursive : Change g (after openRecursive g)
  | closeRecursive {opening : Opening} {body : Rule}
      (hself : g.node? opening.self = some ⟨opening.info, .reference opening.cell true⟩)
      (hcell : g.cells[opening.cell]? = some .unfinished) (hbody : g.Usable body) :
      Change g (after (closeRecursive opening body) g)
  | define {g' : Grammar τ α σ} {declared definition : Rule} (hdefinition : g.Usable definition)
      (hdefine : g.define declared definition = .ok g') : Change g g'
  | supplying {cell : CellId} {supplier : σ} (hcell : g.cells[cell]? = some (.deferred supplier)) :
      Change g (g.setCell cell .computing)
  | supplied {cell : CellId} {made : Rule} (hcell : g.cells[cell]? = some .computing)
      (hmade : g.Usable made) : Change g (g.setCell cell (.supplied made))
  | spoiled {cell : CellId} (hcell : g.cells[cell]? = some .computing) :
      Change g (g.setCell cell .spoiled)
  | release (roots : List Rule) : Change g (g.release roots)

/-- Operations turn a grammar into another one. -/
def Evolves (g g' : Grammar τ α σ) : Prop := Relation.ReflTransGen Change g g'

/-- Grammars that operations build. -/
def Built (g : Grammar τ α σ) : Prop := Evolves empty g

/-! ### The invariant -/

/-- One item or more, in the choice that a repetition makes. -/
def RunOf (g : Grammar τ α σ) (form : Form τ α) (r : Rule) : Prop :=
  g.Has r ∧ ∃ without nothing info info' f value, form = .oneOf without [r] ∧
    g.node? without = some ⟨info, .map nothing f⟩ ∧
    g.node? nothing = some ⟨info', .epsilon value⟩

/-- What holds of every grammar that is built. -/
structure Consistent (g : Grammar τ α σ) : Prop where
  id_lt : ∀ {r node}, g.node? r = some node → node.info.id < g.nextId
  agree : ∀ {r r' node node'}, g.node? r = some node → g.node? r' = some node' →
    node.info.id = node'.info.id → node.form.Agree node'.form
  part : ∀ {r node r'}, g.node? r = some node → r' ∈ node.form.parts →
    g.Usable r' ∨ g.RunOf node.form r'
  cell : ∀ {r info cell weak}, g.node? r = some ⟨info, .reference cell weak⟩ →
    cell < g.cells.size
  target : ∀ {cell r}, g.target cell = .rule r → g.Usable r

variable {g g' g'' : Grammar τ α σ} {r : Rule} {info : RuleInfo} {form : Form τ α}
  {content : Cell σ}

theorem Usable.has (h : g.Usable r) : g.Has r := by
  obtain ⟨node, hnode, -⟩ := h
  exact ⟨node, hnode⟩

theorem RunOf.has (h : g.RunOf form r) : g.Has r := h.1

theorem Usable.mono (hkept : ∀ r node, g.node? r = some node → g'.node? r = some node)
    (h : g.Usable r) : g'.Usable r := by
  obtain ⟨node, hnode, hform⟩ := h
  exact ⟨node, hkept r node hnode, hform⟩

theorem RunOf.mono (hkept : ∀ r node, g.node? r = some node → g'.node? r = some node)
    (h : g.RunOf form r) : g'.RunOf form r := by
  obtain ⟨⟨node, hnode⟩, without, nothing, info, info', f, value, hform, hwithout, hnothing⟩ := h
  exact ⟨⟨node, hkept _ _ hnode⟩, without, nothing, info, info', f, value, hform,
    hkept _ _ hwithout, hkept _ _ hnothing⟩

theorem Consistent.closed (h : g.Consistent) : g.Closed where
  part _ _ hnode _ hpart := (h.part hnode hpart).elim Usable.has RunOf.has
  cell _ _ _ _ hnode := h.cell hnode
  target _ _ htarget := (h.target htarget).has

/-- Rules with the same identity use the same rules. -/
theorem Consistent.uses_of_id_eq {r' q : Rule} {node node' : Node τ α} (h : g.Consistent)
    (hnode : g.node? r = some node) (hnode' : g.node? r' = some node')
    (hid : node.info.id = node'.info.id) (huses : g.Uses r q) : g.Uses r' q := by
  obtain ⟨info, form⟩ := node
  obtain ⟨info', form'⟩ := node'
  rcases h.agree hnode hnode' hid with heq | ⟨cell, weak, weak', heq, heq'⟩
  · cases heq
    rcases huses with ⟨hnode'', hpart⟩ | ⟨hnode'', htarget⟩
    · cases hnode.symm.trans hnode''
      exact .part hnode' hpart
    · cases hnode.symm.trans hnode''
      exact .target hnode' htarget
  · cases heq
    cases heq'
    exact (uses_reference_iff hnode').2 ((uses_reference_iff hnode).1 huses)

/-- What a rule uses in the end, all rules do that have one of its identity below them. -/
theorem Consistent.transGen_of_id_mem {r' q : Rule} {node : Node τ α} (h : g.Consistent)
    (hnode : g.node? q = some node) (hid : node.info.id ∈ g.idsBelow r)
    (hway : Relation.TransGen g.Uses q r') : Relation.TransGen g.Uses r r' := by
  obtain ⟨twin, node', hreach, hnode', hid'⟩ := hid
  obtain ⟨next, huses, hrest⟩ := Relation.TransGen.head'_iff.1 hway
  exact .trans_right hreach (.head' (h.uses_of_id_eq hnode hnode' hid'.symm huses) hrest)

/-! ### Single changes -/

theorem node?_place (g : Grammar τ α σ) (info : RuleInfo) (form : Form τ α) (r : Rule) :
    (after (place info form) g).node? r =
      if r.node = g.nodes.size then some ⟨info, form⟩ else g.node? r := by
  simp only [after, place, node?]
  exact Array.getElem?_push

theorem node?_place_self (g : Grammar τ α σ) (info : RuleInfo) (form : Form τ α) :
    (after (place info form) g).node? ⟨g.nodes.size⟩ = some ⟨info, form⟩ := by
  rw [node?_place, if_pos rfl]

theorem node?_place_of_some {node : Node τ α} (h : g.node? r = some node) :
    (after (place info form) g).node? r = some node := by
  have hlt : r.node < g.nodes.size := (Array.getElem?_eq_some_iff.1 h).1
  rw [node?_place, if_neg (Nat.ne_of_lt hlt), h]

/-- Every node is the new one or an old one. -/
theorem of_node?_place {node : Node τ α} (h : (after (place info form) g).node? r = some node) :
    (r = ⟨g.nodes.size⟩ ∧ node = ⟨info, form⟩) ∨
      r ≠ ⟨g.nodes.size⟩ ∧ g.node? r = some node := by
  rw [node?_place] at h
  split at h
  · next heq => exact Or.inl ⟨congrArg Rule.mk heq, (Option.some.inj h).symm⟩
  · next hne => exact Or.inr ⟨fun heq => hne (congrArg Rule.node heq), h⟩

theorem after_labelled {node : Node τ α} (hnode : g.node? r = some node) (label : String) :
    after (labelled r label) g = after (place (node.info.labelled label) node.form) g := by
  simp only [after, labelled, StateT.run_bind, StateT.run_get, pure_bind, hnode]

/-- **What a definition does** if it is taken: it fills the cell of a declared rule that waits
for one. -/
theorem of_define {declared definition : Rule} (h : g.define declared definition = .ok g') :
    ∃ info cell weak, g.node? declared = some ⟨info, .reference cell weak⟩ ∧
      g.cells[cell]? = some (.declared none) ∧
      g' = g.setCell cell (.declared (some definition)) := by
  unfold define at h
  split at h
  · next cell weak hform =>
    obtain ⟨⟨info, _⟩, hnode, rfl⟩ := Option.map_eq_some_iff.1 hform
    split at h
    · next hcell =>
      cases h
      exact ⟨info, cell, weak, hnode, hcell, rfl⟩
    all_goals cases h
  · cases h

theorem target_setCell (g : Grammar τ α σ) {cell cell' : CellId} (hrule :
    (g.setCell cell content).target cell' = .rule r) :
    content.target = .rule r ∨ g.target cell' = .rule r := by
  simp only [Grammar.target, setCell, Array.getElem?_setIfInBounds] at hrule ⊢
  by_cases hsame : cell = cell'
  · subst hsame
    by_cases hlt : cell < g.cells.size
    · simp only [hlt, if_true] at hrule
      exact Or.inl hrule
    · simp [hlt] at hrule
  · simp only [hsame, if_false] at hrule
    exact Or.inr hrule

theorem target_addCell (g : Grammar τ α σ) {cell : CellId} (hrule :
    (after (addCell content) g).target cell = .rule r) :
    content.target = .rule r ∨ g.target cell = .rule r := by
  have hpush : (after (addCell content) g).cells = g.cells.push content := rfl
  simp only [Grammar.target, hpush, Array.getElem?_push] at hrule ⊢
  by_cases hlast : cell = g.cells.size
  · rw [if_pos hlast] at hrule
    exact Or.inl hrule
  · rw [if_neg hlast] at hrule
    exact Or.inr hrule

theorem target_release (roots : List Rule) {cell : CellId} (hrule :
    (g.release roots).target cell = .rule r) : g.target cell = .rule r := by
  rcases g.cell_release roots cell with hsame | ⟨hreleased, -⟩
  · rwa [Grammar.target, hsame] at hrule
  · rw [Grammar.target, hreleased] at hrule
    cases hrule

namespace Consistent

/-- Cells and counters may change as long as cells lead to usable rules. -/
theorem of_nodes (h : g.Consistent) (hnodes : g'.nodes = g.nodes) (hid : g.nextId ≤ g'.nextId)
    (hsize : g.cells.size ≤ g'.cells.size)
    (htarget : ∀ cell r, g'.target cell = .rule r → g.Usable r) : g'.Consistent := by
  have hnode : ∀ r, g'.node? r = g.node? r := by
    intro r
    rw [node?, node?, hnodes]
  have hkept : ∀ r node, g.node? r = some node → g'.node? r = some node :=
    fun r node hr => (hnode r).trans hr
  constructor
  · intro r node hr
    exact Nat.lt_of_lt_of_le (h.id_lt (hnode r ▸ hr)) hid
  · intro r r' node node' hr hr'
    exact h.agree (hnode r ▸ hr) (hnode r' ▸ hr')
  · intro r node r' hr hpart
    exact (h.part (hnode r ▸ hr) hpart).imp (Usable.mono hkept) (RunOf.mono hkept)
  · intro r info cell weak hr
    exact Nat.lt_of_lt_of_le (h.cell (hnode r ▸ hr)) hsize
  · intro cell r hr
    exact (htarget cell r hr).mono hkept

theorem takeInfo (h : g.Consistent) (kind : RuleKind) : (after (takeInfo kind) g).Consistent :=
  h.of_nodes rfl (Nat.le_succ _) (Nat.le_refl _) fun _ _ => h.target

theorem addCell (h : g.Consistent) (hcontent : ∀ r, content.target = .rule r → g.Usable r) :
    (after (addCell content) g).Consistent := by
  refine h.of_nodes rfl (Nat.le_refl _) ?_ fun cell r hr => ?_
  · have hpush : (after (Grammar.addCell content) g).cells = g.cells.push content := rfl
    rw [hpush, Array.size_push]
    exact Nat.le_succ _
  · exact (g.target_addCell hr).elim (hcontent r) h.target

theorem setCell (h : g.Consistent) (cell : CellId)
    (hcontent : ∀ r, content.target = .rule r → g.Usable r) :
    (g.setCell cell content).Consistent := by
  refine h.of_nodes rfl (Nat.le_refl _) ?_ fun cell' r hr => ?_
  · simp [Grammar.setCell]
  · exact (g.target_setCell hr).elim (hcontent r) h.target

theorem release (h : g.Consistent) (roots : List Rule) : (g.release roots).Consistent :=
  h.of_nodes (release_nodes ..) (release_nextId ..).ge (size_cells_release ..).ge
    fun _ _ hr => h.target (target_release roots hr)

/-- A node may be added if it agrees with those that have its identity. -/
theorem place (h : g.Consistent) (hid : info.id < g.nextId)
    (hagree : ∀ r node, g.node? r = some node → node.info.id = info.id → node.form.Agree form)
    (hparts : ∀ r ∈ form.parts, g.Usable r ∨ g.RunOf form r)
    (hcell : ∀ cell weak, form = .reference cell weak → cell < g.cells.size) :
    (after (place info form) g).Consistent := by
  have hkept : ∀ r node, g.node? r = some node →
      (after (Grammar.place info form) g).node? r = some node :=
    fun r node hr => node?_place_of_some hr
  constructor
  · intro r node hr
    obtain ⟨-, rfl⟩ | ⟨-, hold⟩ := of_node?_place hr
    · exact hid
    · exact h.id_lt hold
  · intro r r' node node' hr hr' heq
    obtain ⟨-, rfl⟩ | ⟨-, hold⟩ := of_node?_place hr <;>
      obtain ⟨-, rfl⟩ | ⟨-, hold'⟩ := of_node?_place hr'
    · exact .refl _
    · exact (hagree r' node' hold' heq.symm).symm
    · exact hagree r node hold heq
    · exact h.agree hold hold' heq
  · intro r node r' hr hpart
    obtain ⟨-, rfl⟩ | ⟨-, hold⟩ := of_node?_place hr
    · exact (hparts r' hpart).imp (Usable.mono hkept) (RunOf.mono hkept)
    · exact (h.part hold hpart).imp (Usable.mono hkept) (RunOf.mono hkept)
  · intro r info' cell weak hr
    obtain ⟨-, heq⟩ | ⟨-, hold⟩ := of_node?_place hr
    · cases heq
      exact hcell cell weak rfl
    · exact h.cell hold
  · intro cell r hr
    exact (h.target hr).mono hkept

/-- A node with a new identity agrees with all there are. -/
theorem make (h : g.Consistent) (kind : RuleKind)
    (hparts : ∀ r ∈ form.parts, g.Usable r ∨ g.RunOf form r)
    (hcell : ∀ cell weak, form = .reference cell weak → cell < g.cells.size) :
    (after (make kind form) g).Consistent := by
  refine (h.takeInfo kind).place (Nat.lt_succ_self _) ?_ hparts hcell
  intro r node hr heq
  exact absurd heq (Nat.ne_of_lt (h.id_lt hr))

theorem reference (h : g.Consistent) (kind : RuleKind) (weak : Bool)
    (hcontent : ∀ r, content.target = .rule r → g.Usable r) :
    (after (do
      let info ← Grammar.takeInfo kind
      let cell ← Grammar.addCell content
      Grammar.place info (.reference cell weak)) g).Consistent := by
  refine ((h.takeInfo kind).addCell hcontent).place (Nat.lt_succ_self _) ?_ nofun ?_
  · intro r node hr heq
    exact absurd heq (Nat.ne_of_lt (h.id_lt hr))
  · intro cell weak' heq
    cases heq
    exact Array.size_push content ▸ Nat.lt_succ_self _

/-- A repetition makes one item or more, nothing with an empty list, and the choice of both. -/
theorem repetition (h : g.Consistent) {item : Rule} (unit : α) (collect : List α → α)
    (hitem : g.Usable item) : (after (repetition item unit collect) g).Consistent := by
  let g₁ := after (Grammar.make .repetition (.repetition item collect)) g
  let g₂ := after (Grammar.make .epsilon (.epsilon unit)) g₁
  let g₃ := after (constant ⟨g₁.nodes.size⟩ (collect [])) g₂
  have h₁ : g₁.Consistent := by
    refine h.make _ ?_ nofun
    intro r hr
    cases List.mem_singleton.1 hr
    exact Or.inl hitem
  have h₂ : g₂.Consistent := h₁.make _ nofun nofun
  have hmore : g₁.node? ⟨g.nodes.size⟩ = some _ := node?_place_self ..
  have hnothing : g₂.node? ⟨g₁.nodes.size⟩ = some _ := node?_place_self ..
  have hwithout : g₃.node? ⟨g₂.nodes.size⟩ = some _ := node?_place_self ..
  have h₃ : g₃.Consistent := by
    refine h₂.make _ ?_ nofun
    intro r hr
    cases List.mem_singleton.1 hr
    exact Or.inl ⟨_, hnothing, rfl⟩
  refine h₃.make _ ?_ nofun
  intro r hr
  rcases List.mem_cons.1 hr with rfl | hr
  · exact Or.inl ⟨_, hwithout, rfl⟩
  · cases List.mem_singleton.1 hr
    exact Or.inr ⟨⟨_, node?_place_of_some (node?_place_of_some hmore)⟩, _, _, _, _, _, _, rfl,
      hwithout, node?_place_of_some hnothing⟩

theorem labelled (h : g.Consistent) (hr : g.Usable r) (label : String) :
    (after (labelled r label) g).Consistent := by
  obtain ⟨node, hnode, hform⟩ := hr
  rw [after_labelled hnode]
  refine h.place (h.id_lt hnode) ?_ (fun r' hr' => h.part hnode hr') ?_
  · intro r' node' hnode' heq
    exact h.agree hnode' hnode heq
  · intro cell weak heq
    obtain ⟨info, form⟩ := node
    cases heq
    exact h.cell hnode

theorem closeRecursive (h : g.Consistent) {opening : Opening} {body : Rule}
    (hself : g.node? opening.self = some ⟨opening.info, .reference opening.cell true⟩)
    (hbody : g.Usable body) : (after (closeRecursive opening body) g).Consistent := by
  have hset : (g.setCell opening.cell (.recursive body)).Consistent := by
    refine h.setCell _ ?_
    intro r heq
    cases heq
    exact hbody
  refine hset.place (h.id_lt hself) ?_ nofun ?_
  · intro r node hnode heq
    exact (h.agree hnode hself heq).reference false
  · intro cell weak heq
    cases heq
    exact (hset.cell hself :)

theorem define (h : g.Consistent) {declared definition : Rule} (hdefinition : g.Usable definition)
    (hdefine : g.define declared definition = .ok g') : g'.Consistent := by
  obtain ⟨_, cell, _, -, -, rfl⟩ := of_define hdefine
  refine h.setCell _ fun r heq => ?_
  cases heq
  exact hdefinition

end Consistent

/-- An operation keeps a grammar consistent. -/
theorem Change.consistent (h : g.Change g') (hg : g.Consistent) : g'.Consistent := by
  cases h with
  | make hform hparts =>
      refine hg.make _ (fun r hr => Or.inl (hparts r hr)) ?_
      intro cell weak heq
      subst heq
      cases hform
  | repetition hitem => exact hg.repetition _ _ hitem
  | labelled hr => exact hg.labelled hr _
  | declare => exact hg.reference _ _ nofun
  | deferred => exact hg.reference _ _ nofun
  | openRecursive => exact hg.reference _ _ nofun
  | closeRecursive hself _ hbody => exact hg.closeRecursive hself hbody
  | define hdefinition hdefine => exact hg.define hdefinition hdefine
  | supplying _ => exact hg.setCell _ nofun
  | supplied _ hmade =>
      refine hg.setCell _ ?_
      intro r heq
      cases heq
      exact hmade
  | spoiled _ => exact hg.setCell _ nofun
  | release roots => exact hg.release roots

theorem Evolves.consistent (h : g.Evolves g') (hg : g.Consistent) : g'.Consistent := by
  induction h with
  | refl => exact hg
  | tail _ hchange ih => exact hchange.consistent ih

/-- **Every grammar that operations build is consistent.** -/
theorem Built.consistent (h : g.Built) : g.Consistent := by
  refine Evolves.consistent h ?_
  constructor <;> intros <;> contradiction

/-! ### What stays -/

/-- What is known of a grammar in a later one. Rules and what references lead to stay, but
recursive rules may be released. -/
structure Precedes (g g' : Grammar τ α σ) : Prop where
  node : ∀ {r node}, g.node? r = some node → g'.node? r = some node
  target : ∀ {cell r}, g.target cell = .rule r →
    g'.target cell = .rule r ∨ g'.cells[cell]? = some .released
  released : ∀ {cell : CellId}, g.cells[cell]? = some .released → g'.cells[cell]? = some .released

namespace Precedes

theorem refl (g : Grammar τ α σ) : g.Precedes g := ⟨id, Or.inl, id⟩

theorem trans (h : g.Precedes g') (h' : g'.Precedes g'') : g.Precedes g'' where
  node hnode := h'.node (h.node hnode)
  target htarget := (h.target htarget).elim h'.target fun hcell => Or.inr (h'.released hcell)
  released hcell := h'.released (h.released hcell)

theorem takeInfo (g : Grammar τ α σ) (kind : RuleKind) :
    g.Precedes (after (Grammar.takeInfo kind) g) := ⟨id, Or.inl, id⟩

theorem place (g : Grammar τ α σ) (info : RuleInfo) (form : Form τ α) :
    g.Precedes (after (Grammar.place info form) g) := ⟨node?_place_of_some, Or.inl, id⟩

theorem make (g : Grammar τ α σ) (kind : RuleKind) (form : Form τ α) :
    g.Precedes (after (Grammar.make kind form) g) := (takeInfo g kind).trans (place _ _ _)

/-- A new cell leaves those before as they are. -/
theorem addCell (g : Grammar τ α σ) (content : Cell σ) :
    g.Precedes (after (Grammar.addCell content) g) := by
  have hcells : ∀ {cell : CellId} {content'}, g.cells[cell]? = some content' →
      (after (Grammar.addCell content) g).cells[cell]? = some content' := by
    intro cell content' hcell
    have hlt : cell < g.cells.size := (Array.getElem?_eq_some_iff.1 hcell).1
    have hpush : (after (Grammar.addCell content) g).cells = g.cells.push content := rfl
    rw [hpush, Array.getElem?_push, if_neg (Nat.ne_of_lt hlt), hcell]
  refine ⟨id, fun {cell r} htarget => Or.inl ?_, hcells⟩
  simp only [Grammar.target] at htarget ⊢
  cases hcell : g.cells[cell]? with
  | none => simp [hcell] at htarget
  | some content' =>
      rw [hcell] at htarget
      rw [hcells hcell]
      exact htarget

/-- A cell may be filled that does not lead to a rule and has not been released. -/
theorem setCell {cell : CellId} {old : Cell σ} (hcell : g.cells[cell]? = some old)
    (hrule : ∀ r, old.target ≠ .rule r) (hreleased : old ≠ .released) (content : Cell σ) :
    g.Precedes (g.setCell cell content) := by
  have hcells : ∀ {cell' : CellId}, g.cells[cell']? ≠ some old →
      (g.setCell cell content).cells[cell']? = g.cells[cell']? := by
    intro cell' hother
    have hne : cell ≠ cell' := by
      rintro rfl
      exact hother hcell
    simp [Grammar.setCell, hne]
  refine ⟨id, fun {cell' r} htarget => Or.inl ?_, fun {cell'} hold => ?_⟩
  · have hother : g.cells[cell']? ≠ some old := by
      intro heq
      simp only [Grammar.target, heq] at htarget
      exact hrule r htarget
    simp only [Grammar.target, hcells hother]
    exact htarget
  · rw [hcells, hold]
    rw [hold]
    exact fun heq => hreleased (Option.some.inj heq).symm

theorem release (g : Grammar τ α σ) (roots : List Rule) : g.Precedes (g.release roots) := by
  refine ⟨fun {r node} hnode => ?_, fun {cell r} htarget => ?_, fun {cell} hcell => ?_⟩
  · rwa [node?, release_nodes]
  · rcases g.cell_release roots cell with hsame | ⟨hreleased, -⟩
    · left
      rwa [Grammar.target, hsame]
    · exact Or.inr hreleased
  · rcases g.cell_release roots cell with hsame | ⟨hreleased, -⟩
    · exact hsame.trans hcell
    · exact hreleased

theorem reference (g : Grammar τ α σ) (kind : RuleKind) (content : Cell σ) (weak : Bool) :
    g.Precedes (after (do
      let info ← Grammar.takeInfo kind
      let cell ← Grammar.addCell content
      Grammar.place info (.reference cell weak)) g) :=
  ((takeInfo g kind).trans (addCell _ content)).trans (place _ _ _)

theorem labelled (hr : g.Usable r) (label : String) :
    g.Precedes (after (Grammar.labelled r label) g) := by
  obtain ⟨node, hnode, -⟩ := hr
  rw [after_labelled hnode]
  exact place g _ _

theorem define {declared definition : Rule} (hdefine : g.define declared definition = .ok g') :
    g.Precedes g' := by
  obtain ⟨_, cell, _, -, hcell, rfl⟩ := of_define hdefine
  exact setCell hcell nofun nofun _

end Precedes

theorem Change.precedes (h : g.Change g') : g.Precedes g' := by
  cases h with
  | make => exact .make g _ _
  | repetition =>
      exact (((Precedes.make g _ _).trans (.make _ _ _)).trans (.make _ _ _)).trans (.make _ _ _)
  | labelled hr => exact .labelled hr _
  | declare => exact .reference g _ _ _
  | deferred => exact .reference g _ _ _
  | openRecursive => exact .reference g _ _ _
  | closeRecursive _ hcell _ => exact (Precedes.setCell hcell nofun nofun _).trans (.place _ _ _)
  | define _ hdefine => exact .define hdefine
  | supplying hcell => exact .setCell hcell nofun nofun _
  | supplied hcell _ => exact .setCell hcell nofun nofun _
  | spoiled hcell => exact .setCell hcell nofun nofun _
  | release roots => exact .release g roots

/-- **What is known of a grammar stays**, whatever operations follow. -/
theorem Evolves.precedes (h : g.Evolves g') : g.Precedes g' := by
  induction h with
  | refl => exact .refl g
  | tail _ hchange ih => exact ih.trans hchange.precedes

/-! ### A rule that starts again -/

/-- The guard, and then the rule itself. -/
def turn : Form Char Nat := .sequence ⟨1⟩ [⟨0⟩] fun vs => .ok vs.sum

/-- A recursive rule that starts again after a guard, or is something else. Its root is the
last rule. -/
def again (kind : RuleKind) (guard : Form Char Nat) (kind' : RuleKind) (other : Form Char Nat) :
    Grammar Char Nat Unit where
  nodes := #[
    ⟨⟨0, .recursive, none⟩, .reference 0 true⟩,
    ⟨⟨1, kind, none⟩, guard⟩,
    ⟨⟨2, .sequence, none⟩, turn⟩,
    ⟨⟨3, kind', none⟩, other⟩,
    ⟨⟨4, .oneOf, none⟩, .oneOf ⟨2⟩ [⟨3⟩]⟩,
    ⟨⟨0, .recursive, none⟩, .reference 0 false⟩]
  cells := #[.recursive ⟨4⟩]
  nextId := 5

theorem again_built {kind kind' : RuleKind} {guard other : Form Char Nat}
    (hguard : guard.isPlain = true) (hparts : guard.parts = [])
    (hother : other.isPlain = true) (hparts' : other.parts = []) :
    (again kind guard kind' other).Built := by
  let g₁ : Grammar Char Nat Unit := after openRecursive empty
  let g₂ := after (Grammar.make kind guard) g₁
  let g₃ := after (Grammar.make .sequence turn) g₂
  let g₄ := after (Grammar.make kind' other) g₃
  let g₅ := after (Grammar.make .oneOf (.oneOf ⟨2⟩ [⟨3⟩])) g₄
  have h₁ : g₁.Built := .single .openRecursive
  have h₂ : g₂.Built := h₁.tail (.make hguard (by simp [hparts]))
  have h₃ : g₃.Built := by
    refine h₂.tail (.make rfl ?_)
    intro r hr
    rcases List.mem_cons.1 hr with rfl | hr
    · exact ⟨_, rfl, Form.isRun_of_isPlain hguard⟩
    · cases List.mem_singleton.1 hr
      exact ⟨_, rfl, rfl⟩
  have h₄ : g₄.Built := h₃.tail (.make hother (by simp [hparts']))
  have h₅ : g₅.Built := by
    refine h₄.tail (.make rfl ?_)
    intro r hr
    rcases List.mem_cons.1 hr with rfl | hr
    · exact ⟨_, rfl, rfl⟩
    · cases List.mem_singleton.1 hr
      exact ⟨_, rfl, Form.isRun_of_isPlain hother⟩
  have hclose : (after (Grammar.closeRecursive ⟨⟨0, .recursive, none⟩, 0, ⟨0⟩⟩ ⟨4⟩) g₅).Built :=
    h₅.tail (.closeRecursive rfl rfl ⟨_, rfl, rfl⟩)
  exact hclose

/-- The rule that starts again at once, or is the letter x. -/
def stuttering : Grammar Char Nat Unit :=
  again .epsilon (.epsilon 0) .just (.terminal fun c => .ok (if c = 'x' then some 1 else none))

/-- The rule that starts again at the end of the input, or is nothing. -/
def lingering : Grammar Char Nat Unit := again .endOfInput (.endOfInput 0) .epsilon (.epsilon 1)

theorem stuttering_built : stuttering.Built := again_built rfl rfl rfl rfl

theorem lingering_built : lingering.Built := again_built rfl rfl rfl rfl

end Grammar

end LazyGrammar

import LazyGrammar.Proofs.Analysis.Survey

/-!
# LazyGrammar.Proofs.Rule.Meanwhile

**What stays while a rule is in use.** Rules are made, declared rules are defined, suppliers run
and names are given up, and none of it makes a difference to what is below a rule that somebody
holds (`Meanwhile.frozen`), as long as the recursive rules live that are referred to there.

Design points:

* A parse does nothing to a grammar but run suppliers, so there is no act for it.
* Only self references are weak. What a rule refers to strongly it keeps by itself, and all that
  its holder has to see to is what the self references below it refer to (`keepsRule_of_reaches`).
* The kind of a reference says what stands in its cell (`Kinded`). So a cell that goes on leading
  to the same rule goes on being as it is.
-/

namespace LazyGrammar

variable {τ α σ : Type}

/-! ### Kinds of cells -/

/-- The kind of the rules that refer to a rule through a cell. -/
def Cell.kind : Cell σ → RuleKind
  | .declared _ => .declared
  | .unfinished | .recursive _ | .released => .recursive
  | .deferred _ | .computing | .supplied _ | .spoiled => .lazy

/-- A cell of a known kind that leads to a rule is known. -/
theorem Cell.eq_of_kind {content content' : Cell σ} {r : Rule}
    (hkind : content.kind = content'.kind) (h : content.target = .rule r)
    (h' : content'.target = .rule r) : content = content' := by
  rcases content with ((_ | _) | _ | _ | _ | _ | _ | _ | _) <;> cases h <;>
  rcases content' with ((_ | _) | _ | _ | _ | _ | _ | _ | _) <;> cases h' <;>
  first
    | rfl
    | cases hkind

namespace Grammar

/-- Every reference leads through a cell of its kind, and only self references are weak. -/
structure Kinded (g : Grammar τ α σ) : Prop where
  cell : ∀ {r info cell weak}, g.node? r = some ⟨info, .reference cell weak⟩ →
    ∃ content, g.cells[cell]? = some content ∧ content.kind = info.kind
  weak : ∀ {r info cell}, g.node? r = some ⟨info, .reference cell true⟩ → info.kind = .recursive

variable {g g' g'' : Grammar τ α σ} {r root : Rule} {info : RuleInfo} {form : Form τ α}
  {cell : CellId} {content old : Cell σ} {weak : Bool} {roots : List Rule}

namespace Kinded

theorem empty : (Grammar.empty : Grammar τ α σ).Kinded := by
  constructor <;> intros <;> contradiction

/-- Cells may change as long as their kinds stay. -/
theorem of_cells (h : g.Kinded) (hnodes : g'.nodes = g.nodes)
    (hcells : ∀ {cell : CellId} {content}, g.cells[cell]? = some content →
      ∃ content', g'.cells[cell]? = some content' ∧ content'.kind = content.kind) : g'.Kinded := by
  have hnode : ∀ {r node}, g'.node? r = some node → g.node? r = some node := by
    intro r node hr
    rwa [node?, hnodes] at hr
  refine ⟨fun hr => ?_, fun hr => h.weak (hnode hr)⟩
  obtain ⟨content, hcell, hkind⟩ := h.cell (hnode hr)
  obtain ⟨content', hcell', hkind'⟩ := hcells hcell
  exact ⟨content', hcell', hkind'.trans hkind⟩

theorem place (h : g.Kinded) (hcell : ∀ cell weak, form = .reference cell weak →
      (∃ content, g.cells[cell]? = some content ∧ content.kind = info.kind) ∧
        (weak = true → info.kind = .recursive)) : (after (place info form) g).Kinded := by
  constructor
  · intro r info' cell weak hr
    obtain ⟨-, heq⟩ | ⟨-, hold⟩ := of_node?_place hr
    · cases heq
      exact (hcell cell weak rfl).1
    · exact h.cell hold
  · intro r info' cell hr
    obtain ⟨-, heq⟩ | ⟨-, hold⟩ := of_node?_place hr
    · cases heq
      exact (hcell cell true rfl).2 rfl
    · exact h.weak hold

theorem takeInfo (h : g.Kinded) (kind : RuleKind) : (after (takeInfo kind) g).Kinded :=
  h.of_cells rfl fun hcell => ⟨_, hcell, rfl⟩

theorem make (h : g.Kinded) (kind : RuleKind) (hform : ∀ cell weak, form ≠ .reference cell weak) :
    (after (make kind form) g).Kinded :=
  (h.takeInfo kind).place fun cell weak heq => absurd heq (hform cell weak)

theorem addCell (h : g.Kinded) (content : Cell σ) : (after (addCell content) g).Kinded := by
  refine h.of_cells rfl fun {cell old} hcell => ⟨old, ?_, rfl⟩
  have hlt : cell < g.cells.size := (Array.getElem?_eq_some_iff.1 hcell).1
  have hpush : (after (Grammar.addCell content) g).cells = g.cells.push content := rfl
  rw [hpush, Array.getElem?_push, if_neg (Nat.ne_of_lt hlt), hcell]

theorem setCell (h : g.Kinded) (hcell : g.cells[cell]? = some old)
    (hkind : content.kind = old.kind) : (g.setCell cell content).Kinded := by
  refine h.of_cells rfl fun {cell' content'} hcell' => ?_
  rw [Grammar.setCell, Array.getElem?_setIfInBounds]
  by_cases hsame : cell = cell'
  · subst hsame
    cases hcell.symm.trans hcell'
    rw [if_pos rfl, if_pos (Array.getElem?_eq_some_iff.1 hcell).1]
    exact ⟨content, rfl, hkind⟩
  · rw [if_neg hsame]
    exact ⟨content', hcell', rfl⟩

theorem reference (h : g.Kinded) (kind : RuleKind) (content : Cell σ) (weak : Bool)
    (hkind : content.kind = kind) (hweak : weak = true → kind = .recursive) :
    (after (do
      let info ← Grammar.takeInfo kind
      let cell ← Grammar.addCell content
      Grammar.place info (.reference cell weak)) g).Kinded := by
  refine ((h.takeInfo kind).addCell content).place fun cell weak' heq => ?_
  cases heq
  exact ⟨⟨content, Array.getElem?_push_size, hkind⟩, hweak⟩

theorem release (h : g.Kinded) (roots : List Rule) : (g.release roots).Kinded := by
  refine h.of_cells (release_nodes ..) fun {cell content} hcell => ?_
  rcases g.cell_release roots cell with hsame | ⟨hreleased, body, hbody⟩
  · exact ⟨content, hsame.trans hcell, rfl⟩
  · cases hcell.symm.trans hbody
    exact ⟨.released, hreleased, rfl⟩

theorem closeRecursive (h : g.Kinded) {opening : Opening} {body : Rule}
    (hself : g.node? opening.self = some ⟨opening.info, .reference opening.cell true⟩)
    (hcell : g.cells[opening.cell]? = some .unfinished) :
    (after (closeRecursive opening body) g).Kinded := by
  have hset : (g.setCell opening.cell (.recursive body)).Kinded := h.setCell hcell rfl
  refine hset.place fun cell weak heq => ?_
  cases heq
  exact ⟨hset.cell hself, nofun⟩

end Kinded

/-- An operation keeps references and cells together. -/
theorem Change.kinded (h : g.Change g') (hg : g.Kinded) : g'.Kinded := by
  cases h with
  | make hform _ =>
      refine hg.make _ fun cell weak heq => ?_
      subst heq
      cases hform
  | repetition _ =>
      refine (((hg.make _ ?_).make _ ?_).make _ ?_).make _ ?_ <;>
      · intro cell weak heq
        cases heq
  | @labelled r label hr =>
      obtain ⟨⟨info, form⟩, hnode, -⟩ := hr
      rw [after_labelled hnode]
      refine hg.place fun cell weak heq => ?_
      subst heq
      obtain ⟨content, hcell, hkind⟩ := hg.cell hnode
      refine ⟨⟨content, hcell, hkind⟩, fun hweak => ?_⟩
      subst hweak
      exact (hg.weak hnode :)
  | declare => exact hg.reference _ _ _ rfl nofun
  | deferred => exact hg.reference _ _ _ rfl nofun
  | openRecursive => exact hg.reference _ _ _ rfl fun _ => rfl
  | closeRecursive hself hcell _ => exact hg.closeRecursive hself hcell
  | define _ hdefine =>
      obtain ⟨_, cell, _, -, hcell, rfl⟩ := of_define hdefine
      exact hg.setCell hcell rfl
  | supplying hcell => exact hg.setCell hcell rfl
  | supplied hcell _ => exact hg.setCell hcell rfl
  | spoiled hcell => exact hg.setCell hcell rfl
  | release roots => exact hg.release roots

theorem Evolves.kinded (h : g.Evolves g') (hg : g.Kinded) : g'.Kinded := by
  induction h with
  | refl => exact hg
  | tail _ hchange ih => exact hchange.kinded ih

theorem Accepts.kinded {a : Analysis} (h : g.Accepts root a) : g.Kinded := by
  obtain ⟨g₀, s, hbuilt, -, hfinishes, -⟩ := h
  exact hfinishes.evolves.kinded (Evolves.kinded hbuilt .empty)

/-! ### Histories -/

/-- What may happen to a grammar while a rule is held: an operation that releases nothing; a
definition that is refused; or names are given up, or a definition that was refused is, while the
recursive rules live whose self references the rule uses. -/
inductive Act (root : Rule) (g : Grammar τ α σ) : Grammar τ α σ → Prop
  | change {g' : Grammar τ α σ} (hchange : g.Change g')
      (hlives : ∀ cell : CellId, g'.cells[cell]? = some .released →
        g.cells[cell]? = some .released) : Act root g g'
  | refused {declared definition : Rule} {f : Fault}
      (hdefine : g.define declared definition = .error f) : Act root g g
  | drop {roots : List Rule} (hroot : root ∈ roots)
      (hlives : ∀ r info cell, g.Reaches root r →
        g.node? r = some ⟨info, .reference cell true⟩ →
        (g.release roots).cells[cell]? ≠ some .released) : Act root g (g.release roots)

/-- What happens to a grammar, act by act, while a rule is held. -/
def Meanwhile (root : Rule) (g g' : Grammar τ α σ) : Prop := Relation.ReflTransGen (Act root) g g'

/-- What is below a rule stays as it is. -/
structure Frozen (root : Rule) (g g' : Grammar τ α σ) : Prop where
  node : ∀ {r node}, g.node? r = some node → g'.node? r = some node
  cell : ∀ {r info cell weak}, g.Reaches root r → g.node? r = some ⟨info, .reference cell weak⟩ →
    g'.cells[cell]? = g.cells[cell]?

theorem Act.evolves (h : g.Act root g') : g.Evolves g' := by
  cases h with
  | change hchange _ => exact .single hchange
  | refused _ => exact .refl
  | drop _ _ => exact .single (.release _)

theorem Meanwhile.evolves (h : g.Meanwhile root g') : g.Evolves g' := by
  induction h with
  | refl => exact .refl
  | tail _ hact ih => exact ih.trans hact.evolves

/-- A cell leads where its content says. -/
theorem target_eq (hcell : g.cells[cell]? = some content) : g.target cell = content.target := by
  rw [Grammar.target, hcell]

namespace Frozen

theorem refl (root : Rule) (g : Grammar τ α σ) : g.Frozen root g := ⟨id, fun _ _ => rfl⟩

theorem target (h : g.Frozen root g') (hr : g.Reaches root r)
    (hnode : g.node? r = some ⟨info, .reference cell weak⟩) : g'.target cell = g.target cell := by
  rw [Grammar.target, Grammar.target, h.cell hr hnode]

theorem node?_eq (h : g.Frozen root g') (hr : g.Has r) : g'.node? r = g.node? r := by
  obtain ⟨node, hnode⟩ := hr
  rw [hnode, h.node hnode]

variable (h : g.Frozen root g') (hcomplete : g.Complete root)

include h hcomplete

/-- The same rules are below a rule. -/
theorem reaches_iff : g'.Reaches root r ↔ g.Reaches root r := by
  have hhas : ∀ {r}, g.Reaches root r → g.Has r := by
    intro r hr
    obtain ⟨_, _, hnode, -⟩ := hcomplete r hr
    exact ⟨_, hnode⟩
  constructor
  · intro hr
    induction hr with
    | refl => exact .refl
    | tail _ hu ih =>
        refine ih.tail ?_
        cases hu with
        | part hnode hpart => exact .part (h.node?_eq (hhas ih) ▸ hnode) hpart
        | target hnode htarget =>
            rw [h.node?_eq (hhas ih)] at hnode
            exact .target hnode (h.target ih hnode ▸ htarget)
  · intro hr
    induction hr with
    | refl => exact .refl
    | tail hr hu ih =>
        refine ih.tail ?_
        cases hu with
        | part hnode hpart => exact .part (h.node hnode) hpart
        | target hnode htarget =>
            exact .target (h.node hnode) ((h.target hr hnode).trans htarget)

theorem complete : g'.Complete root := by
  intro r hr
  rw [h.reaches_iff hcomplete] at hr
  obtain ⟨info, form, hnode, htarget⟩ := hcomplete r hr
  refine ⟨info, form, h.node hnode, fun cell weak hform => ?_⟩
  subst hform
  rw [h.target hr hnode]
  exact htarget cell weak rfl

theorem trans (h' : g'.Frozen root g'') : g.Frozen root g'' where
  node hnode := h'.node (h.node hnode)
  cell hr hnode :=
    (h'.cell ((h.reaches_iff hcomplete).2 hr) (h.node hnode)).trans (h.cell hr hnode)

theorem retains : g'.Retains root := by
  intro r info cell weak hr hnode hreleased
  obtain ⟨r', htarget, -⟩ := (h.complete hcomplete).reference hr hnode
  rw [target_of_released hreleased] at htarget
  cases htarget

end Frozen

/-! ### Nothing changes below the rule -/

/-- What leads to the same rule below a rule is the same. -/
theorem Frozen.of_target (hg : g.Kinded) (hg' : g'.Kinded) (hcomplete : g.Complete root)
    (hnode : ∀ {r node}, g.node? r = some node → g'.node? r = some node)
    (htarget : ∀ {r info cell weak r'}, g.Reaches root r →
      g.node? r = some ⟨info, .reference cell weak⟩ → g.target cell = .rule r' →
        g'.target cell = .rule r') : g.Frozen root g' where
  node := hnode
  cell := by
    intro r info cell weak hr hreference
    obtain ⟨r', hrule, -⟩ := hcomplete.reference hr hreference
    obtain ⟨content, hcell, hkind⟩ := hg.cell hreference
    obtain ⟨content', hcell', hkind'⟩ := hg'.cell (hnode hreference)
    have hrule' := htarget hr hreference hrule
    rw [target_eq hcell] at hrule
    rw [target_eq hcell'] at hrule'
    rw [hcell, hcell', Cell.eq_of_kind (hkind.trans hkind'.symm) hrule hrule']

/-- A rule keeps what it uses directly, unless it is a self reference. -/
theorem keeps_of_uses {r' : Rule} (hu : g.Uses r r') :
    g.Keeps r r' ∨ ∃ info cell, g.node? r = some ⟨info, .reference cell true⟩ ∧
      g.target cell = .rule r' := by
  cases hu with
  | @part node _ hnode hpart =>
      left
      obtain ⟨info, form⟩ := node
      cases form with
      | reference cell weak => cases hpart
      | _ =>
          rw [Keeps, keeps, form?, hnode]
          exact hpart
  | @target info cell weak _ hnode htarget =>
      cases weak with
      | true => exact Or.inr ⟨info, cell, hnode, htarget⟩
      | false =>
          left
          simp [Keeps, keeps, form?, hnode, cellRule?, htarget]

/-- **Whatever is below a rule is kept**, if the rule itself is kept, and so are the recursive
rules whose self references it uses. -/
theorem keepsRule_of_reaches (hg : g.Kinded) (hroot : g.KeepsRule roots root)
    (hlives : ∀ r info cell, g.Reaches root r →
      g.node? r = some ⟨info, .reference cell true⟩ → ¬ g.Loses roots cell)
    (hr : g.Reaches root r) : g.KeepsRule roots r := by
  induction hr with
  | refl => exact hroot
  | @tail r r' hr hu ih =>
      rcases keeps_of_uses hu with hkeeps | ⟨info, cell, hself, htarget⟩
      · exact ih.tail hkeeps
      · -- the recursive rule lives, so somebody keeps a strong reference to it
        have hbody : g.cells[cell]? = some (.recursive r') := by
          obtain ⟨content, hcell, hkind⟩ := hg.cell hself
          rw [target_eq hcell] at htarget
          have hrecursive : content.kind = (Cell.recursive r' : Cell σ).kind :=
            hkind.trans (hg.weak hself)
          rw [hcell, Cell.eq_of_kind hrecursive htarget rfl]
        have hkept : g.KeepsCell roots cell :=
          Classical.not_not.1 fun hnot => hlives r info cell hr hself ⟨⟨r', hbody⟩, hnot⟩
        obtain ⟨r₁, info₁, hkept, hstrong⟩ := keepsCell_iff.1 hkept
        refine hkept.tail ?_
        simp [Keeps, keeps, form?, hstrong, cellRule?, htarget]

/-- No recursive rule below a rule is lost, if the rule is kept, and so are the recursive rules
whose self references it uses. -/
theorem not_loses_of_reaches (hg : g.Kinded) (hroot : g.KeepsRule roots root)
    (hlives : ∀ r info cell, g.Reaches root r →
      g.node? r = some ⟨info, .reference cell true⟩ → ¬ g.Loses roots cell)
    (hr : g.Reaches root r) (hnode : g.node? r = some ⟨info, .reference cell weak⟩) :
    ¬ g.Loses roots cell := by
  cases weak with
  | true => exact hlives r info cell hr hnode
  | false =>
      -- a strong reference that is kept keeps its recursive rule
      have hkept := keepsRule_of_reaches hg hroot hlives hr
      exact fun hlost => hlost.2 (keepsCell_iff.2 ⟨r, info, hkept, hnode⟩)

/-- **An act leaves what is below the rule as it is.** -/
theorem Act.frozen (h : g.Act root g') (hg : g.Kinded) (hcomplete : g.Complete root) :
    g.Frozen root g' := by
  have hg' := h.evolves.kinded hg
  cases h with
  | change hchange hlives =>
      have hprecedes := hchange.precedes
      refine .of_target hg hg' hcomplete hprecedes.node fun hr hnode hrule => ?_
      refine (hprecedes.target hrule).resolve_right fun hreleased => ?_
      rw [target_of_released (hlives _ hreleased)] at hrule
      cases hrule
  | refused _ => exact .refl root g
  | @drop roots hroot hlives =>
      have hkept : ∀ r info cell, g.Reaches root r →
          g.node? r = some ⟨info, .reference cell true⟩ → ¬ g.Loses roots cell :=
        fun r info cell hr hnode hlost =>
          hlives r info cell hr hnode (cells_release_of_loses hlost)
      refine ⟨(Precedes.release g roots).node, fun hr hnode => ?_⟩
      exact cells_release_of_not_loses
        (not_loses_of_reaches hg (.of_mem hroot) hkept hr hnode)

/-- **What is below a rule that is held stays as it is, whatever happens.** -/
theorem Meanwhile.frozen (h : g.Meanwhile root g') (hg : g.Kinded) (hcomplete : g.Complete root) :
    g.Frozen root g' := by
  induction h with
  | refl => exact .refl root g
  | @tail g₁ g₂ hbefore hact ih =>
      have hg₁ : g₁.Kinded := (Meanwhile.evolves hbefore).kinded hg
      exact ih.trans hcomplete (hact.frozen hg₁ (ih.complete hcomplete))

end Grammar

end LazyGrammar

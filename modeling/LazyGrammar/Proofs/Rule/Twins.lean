import Mathlib.Data.Fintype.Card
import LazyGrammar.Proofs.Rule.Built
import LazyGrammar.Proofs.Search.Likeness

/-!
# LazyGrammar.Proofs.Rule.Twins

**Grammars that only differ in labels.** Two grammars are built side by side, by the same
operations, but whatever a rule is used for in the second one may be used under a further label:
every rule of the second grammar is a copy of one of the first (`Twins.Change`). Operations keep
them alike (`Twins.Built.mirrors`), and every grammar has twins (`Twins.exists_of_built`).

Design points:

* A labelled rule is a node of its own, with the form of the rule. So a rule of the second grammar
  may have several copies to refer to, and a circle of rules may go through some copies and not
  through others.
* Cells are shared: a rule and its copies refer to the same cell. Which cells are released depends
  on what is kept, and copies keep what their originals keep (`Mirrors.keepsCell_iff`).
-/

namespace LazyGrammar

variable {τ α σ β : Type}

/-- Informations of one rule, whatever its label. -/
structure RuleInfo.Alike (info info' : RuleInfo) : Prop where
  id : info.id = info'.id
  kind : info.kind = info'.kind

theorem RuleInfo.Alike.refl (info : RuleInfo) : info.Alike info := ⟨rfl, rfl⟩

theorem RuleInfo.Alike.labelled_eq {info info' : RuleInfo} (h : info.Alike info')
    (label : String) : info.labelled label = info'.labelled label := by
  rw [RuleInfo.labelled, RuleInfo.labelled, h.id, h.kind]

/-- Rules in the place of their copies, with any trail. -/
def Likeness.copies (copy : Rule → Rule → Prop) : Likeness :=
  ⟨fun _ => copy, fun _ _ => True, RuleInfo.Alike⟩

/-- A node and one for a copy of its rule. -/
structure Node.Like (copy : Rule → Rule → Prop) (node node' : Node τ α) : Prop where
  info : node.info.Alike node'.info
  form : ∀ crumbs, node.form.Like (.copies copy) crumbs node'.form

/-- The contents of one cell in two grammars. -/
inductive Cell.Like (copy : Rule → Rule → Prop) : Cell σ → Cell σ → Prop
  | undefined : Like copy (.declared none) (.declared none)
  | declared {r r' : Rule} (h : copy r r') : Like copy (.declared (some r)) (.declared (some r'))
  | unfinished : Like copy .unfinished .unfinished
  | recursive {r r' : Rule} (h : copy r r') : Like copy (.recursive r) (.recursive r')
  | released : Like copy .released .released
  | deferred (supplier supplier' : σ) : Like copy (.deferred supplier) (.deferred supplier')
  | computing : Like copy .computing .computing
  | supplied {r r' : Rule} (h : copy r r') : Like copy (.supplied r) (.supplied r')
  | spoiled : Like copy .spoiled .spoiled

/-- Two grammars that are built side by side. For each rule of the second one there is the rule
of the first one that it is a copy of. -/
structure Twins (τ α σ : Type) where
  plain : Grammar τ α σ
  labelled : Grammar τ α σ
  originals : List Rule

variable {copy copy' : Rule → Rule → Prop} {r r' : Rule}

/-! ### Copies -/

theorem Likeness.copies_le (hle : ∀ {r r'}, copy r r' → copy' r r') :
    (Likeness.copies copy).Le (.copies copy') := ⟨hle, id, rfl⟩

theorem Node.Like.mono {node node' : Node τ α} (h : node.Like copy node')
    (hle : ∀ {r r'}, copy r r' → copy' r r') : node.Like copy' node' :=
  ⟨h.info, fun crumbs => (h.form crumbs).mono (Likeness.copies_le hle)⟩

theorem Cell.Like.mono {content content' : Cell σ} (h : content.Like copy content')
    (hle : ∀ {r r'}, copy r r' → copy' r r') : content.Like copy' content' := by
  cases h with
  | declared h => exact .declared (hle h)
  | recursive h => exact .recursive (hle h)
  | supplied h => exact .supplied (hle h)
  | deferred supplier supplier' => exact .deferred supplier supplier'
  | undefined => exact .undefined
  | unfinished => exact .unfinished
  | released => exact .released
  | computing => exact .computing
  | spoiled => exact .spoiled

theorem Cell.Like.target {content content' : Cell σ} (h : content.Like copy content')
    (crumbs : Crumbs) : content.target.Like (.copies copy) crumbs content'.target := by
  cases h with
  | declared h => exact .rule h
  | recursive h => exact .rule h
  | supplied h => exact .rule h
  | deferred supplier supplier' => exact .pending supplier supplier'
  | undefined => exact .fault _
  | unfinished => exact .fault _
  | released => exact .fault _
  | computing => exact .circular
  | spoiled => exact .fault _

/-- Forms that are alike name copies of each other's rules. -/
theorem Form.Like.parts {L : Likeness} {crumbs : Crumbs} {form form' : Form τ α}
    (h : form.Like L crumbs form') : List.Forall₂ (L.rule crumbs) form.parts form'.parts := by
  cases h with
  | map f h => exact .cons h .nil
  | repetition collect h => exact .cons h .nil
  | oneOf h => exact h
  | sequence build h => exact h
  | terminal | epsilon | endOfInput | reference => exact .nil

theorem exists_copy_right {rules rules' : List Rule} (h : List.Forall₂ copy rules rules')
    (hr : r ∈ rules) : ∃ r' ∈ rules', copy r r' := by
  induction h with
  | nil => cases hr
  | cons hfirst _ ih =>
      rcases List.mem_cons.1 hr with rfl | hrest
      · exact ⟨_, List.mem_cons_self .., hfirst⟩
      · obtain ⟨r', hr', hcopy⟩ := ih hrest
        exact ⟨r', List.mem_cons_of_mem _ hr', hcopy⟩

theorem exists_copy_left {rules rules' : List Rule} (h : List.Forall₂ copy rules rules')
    (hr' : r' ∈ rules') : ∃ r ∈ rules, copy r r' :=
  exists_copy_right h.flip hr'

namespace Twins

open Grammar (after Keeps KeepsCell)

variable {T T' : Twins τ α σ} {info info' : RuleInfo} {form form' : Form τ α}
  {content content' : Cell σ} {cell : CellId} {roots roots' : List Rule}

/-! ### Building side by side -/

/-- A rule of the second grammar is a copy of one of the first. -/
def Copy (T : Twins τ α σ) (r r' : Rule) : Prop := T.originals[r'.node]? = some r

/-- Operations on both grammars that make as many rules in both of them. -/
def both (T : Twins τ α σ) (change change' : StateM (Grammar τ α σ) β) (count : Nat) :
    Twins τ α σ :=
  ⟨after change T.plain, after change' T.labelled,
    T.originals ++ (List.range count).map fun i => ⟨T.plain.nodes.size + i⟩⟩

/-- The same operation is done in both grammars, on rules and on copies of them. Or a copy is
labelled, which makes another copy. -/
inductive Change (T : Twins τ α σ) : Twins τ α σ → Prop
  | make {kind : RuleKind} {form form' : Form τ α} (hplain : form.isPlain = true)
      (hparts : ∀ r ∈ form.parts, T.plain.Usable r)
      (hform : ∀ crumbs, form.Like (.copies T.Copy) crumbs form') :
      Change T (T.both (Grammar.make kind form) (Grammar.make kind form') 1)
  | repetition {item item' : Rule} {unit : α} {collect : List α → α}
      (hitem : T.plain.Usable item) (hcopy : T.Copy item item') :
      Change T (T.both (Grammar.repetition item unit collect)
        (Grammar.repetition item' unit collect) 4)
  | labelled {r r' : Rule} {label : String} (hr : T.plain.Usable r) (hcopy : T.Copy r r') :
      Change T (T.both (Grammar.labelled r label) (Grammar.labelled r' label) 1)
  | relabelled {r r' : Rule} {label : String} (hr : T.plain.Usable r) (hcopy : T.Copy r r') :
      Change T ⟨T.plain, after (Grammar.labelled r' label) T.labelled, T.originals ++ [r]⟩
  | declare : Change T (T.both Grammar.declare Grammar.declare 1)
  | deferred {supplier supplier' : σ} :
      Change T (T.both (Grammar.deferred supplier) (Grammar.deferred supplier') 1)
  | openRecursive : Change T (T.both Grammar.openRecursive Grammar.openRecursive 1)
  | closeRecursive {opening : Grammar.Opening} {self' body body' : Rule}
      (hself : T.plain.node? opening.self = some ⟨opening.info, .reference opening.cell true⟩)
      (hcell : T.plain.cells[opening.cell]? = some .unfinished) (hbody : T.plain.Usable body)
      (hself' : T.labelled.node? self' = some ⟨opening.info, .reference opening.cell true⟩)
      (hcopy : T.Copy body body') :
      Change T (T.both (Grammar.closeRecursive opening body)
        (Grammar.closeRecursive { opening with self := self' } body') 1)
  | define {declared declared' definition definition' : Rule} {plain' labelled' : Grammar τ α σ}
      (hdefinition : T.plain.Usable definition) (hdeclared : T.Copy declared declared')
      (hcopy : T.Copy definition definition')
      (hdefine : T.plain.define declared definition = .ok plain')
      (hdefine' : T.labelled.define declared' definition' = .ok labelled') :
      Change T ⟨plain', labelled', T.originals⟩
  | supplying {cell : CellId} {supplier : σ}
      (hcell : T.plain.cells[cell]? = some (.deferred supplier)) :
      Change T ⟨T.plain.setCell cell .computing, T.labelled.setCell cell .computing, T.originals⟩
  | supplied {cell : CellId} {made made' : Rule} (hcell : T.plain.cells[cell]? = some .computing)
      (hmade : T.plain.Usable made) (hcopy : T.Copy made made') :
      Change T ⟨T.plain.setCell cell (.supplied made), T.labelled.setCell cell (.supplied made'),
        T.originals⟩
  | spoiled {cell : CellId} (hcell : T.plain.cells[cell]? = some .computing) :
      Change T ⟨T.plain.setCell cell .spoiled, T.labelled.setCell cell .spoiled, T.originals⟩
  | release {roots roots' : List Rule}
      (hroots : ∀ r ∈ roots, T.plain.Has r → ∃ r' ∈ roots', T.Copy r r')
      (hroots' : ∀ r' ∈ roots', T.labelled.Has r' → ∃ r ∈ roots, T.Copy r r') :
      Change T ⟨T.plain.release roots, T.labelled.release roots', T.originals⟩

/-- Operations turn twins into other ones. -/
def Evolves (T T' : Twins τ α σ) : Prop := Relation.ReflTransGen Change T T'

/-- Twins that operations build. -/
def Built (T : Twins τ α σ) : Prop := Evolves ⟨.empty, .empty, []⟩ T

/-! ### The invariant -/

/-- What holds of all twins that are built. -/
structure Mirrors (T : Twins τ α σ) : Prop where
  nextId : T.plain.nextId = T.labelled.nextId
  length : T.originals.length = T.labelled.nodes.size
  node : ∀ {r r'}, T.Copy r r' → ∃ node node', T.plain.node? r = some node ∧
    T.labelled.node? r' = some node' ∧ node.Like T.Copy node'
  same : ∀ {r node}, T.plain.node? r = some node → ∃ r' form', T.Copy r r' ∧
    T.labelled.node? r' = some ⟨node.info, form'⟩
  cells : ∀ cell : CellId,
    Option.Rel (Cell.Like T.Copy) T.plain.cells[cell]? T.labelled.cells[cell]?

theorem Copy.unique {r₀ : Rule} (h : T.Copy r r') (h₀ : T.Copy r₀ r') : r = r₀ :=
  Option.some.inj (h.symm.trans h₀)

theorem copy_append {originals : List Rule} (h : T.Copy r r')
    (hT : T'.originals = T.originals ++ originals) : T'.Copy r r' := by
  rw [Copy, hT]
  exact List.getElem?_append_left (List.getElem?_eq_some_iff.1 h).1 |>.trans h

theorem copy_both {change change' : StateM (Grammar τ α σ) β} {count : Nat} (h : T.Copy r r') :
    (T.both change change' count).Copy r r' := copy_append h rfl

namespace Mirrors

theorem copied (h : T.Mirrors) (hr : T.plain.Has r) : ∃ r', T.Copy r r' := by
  obtain ⟨node, hnode⟩ := hr
  obtain ⟨r', -, hcopy, -⟩ := h.same hnode
  exact ⟨r', hcopy⟩

theorem target (h : T.Mirrors) (cell : CellId) (crumbs : Crumbs) :
    (T.plain.target cell).Like (.copies T.Copy) crumbs (T.labelled.target cell) := by
  have hcell := h.cells cell
  unfold Grammar.target
  generalize T.plain.cells[cell]? = content, T.labelled.cells[cell]? = content' at hcell
  cases hcell with
  | none => exact .fault _
  | some hcontent => exact hcontent.target crumbs

theorem has (h : T.Mirrors) : T.labelled.Has r' ↔ ∃ r, T.Copy r r' := by
  rw [← Grammar.has_iff, Grammar.has, decide_eq_true_iff, ← h.length]
  constructor
  · exact fun hlt => ⟨_, List.getElem?_eq_getElem hlt⟩
  · rintro ⟨r, hcopy⟩
    exact (List.getElem?_eq_some_iff.1 hcopy).1

theorem size_cells (h : T.Mirrors) : T.plain.cells.size = T.labelled.cells.size := by
  refine Nat.le_antisymm (Nat.le_of_not_lt fun hlt => ?_) (Nat.le_of_not_lt fun hlt => ?_)
  · have hcell := h.cells T.labelled.cells.size
    rw [Array.getElem?_eq_none (Nat.le_refl _), Array.getElem?_eq_getElem hlt] at hcell
    cases hcell
  · have hcell := h.cells T.plain.cells.size
    rw [Array.getElem?_eq_none (Nat.le_refl _), Array.getElem?_eq_getElem hlt] at hcell
    cases hcell

theorem usable (h : T.Mirrors) (hcopy : T.Copy r r') (hr : T.plain.Usable r) :
    T.labelled.Usable r' := by
  obtain ⟨⟨info, form⟩, hnode, hrun⟩ := hr
  obtain ⟨node₀, ⟨info', form'⟩, hnode₀, hnode', hlike⟩ := h.node hcopy
  cases hnode.symm.trans hnode₀
  refine ⟨_, hnode', ?_⟩
  have hform : form.Like (.copies T.Copy) .root form' := hlike.form .root
  cases hform with
  | repetition => cases hrun
  | _ => rfl

/-- A rule that both grammars make next is a copy. -/
theorem copy_new (h : T.Mirrors) {change change' : StateM (Grammar τ α σ) β} :
    (T.both change change' 1).Copy ⟨T.plain.nodes.size⟩ ⟨T.labelled.nodes.size⟩ := by
  rw [← h.length]
  exact List.getElem?_concat_length ..

/-! ### Single changes -/

/-- Cells and counters may change as long as cells lead to copies of each other's rules. -/
theorem of_nodes {plain' labelled' : Grammar τ α σ} (h : T.Mirrors)
    (hplain : plain'.nodes = T.plain.nodes) (hlabelled : labelled'.nodes = T.labelled.nodes)
    (hid : plain'.nextId = labelled'.nextId)
    (hcells : ∀ cell : CellId,
      Option.Rel (Cell.Like T.Copy) plain'.cells[cell]? labelled'.cells[cell]?) :
    Mirrors ⟨plain', labelled', T.originals⟩ where
  nextId := hid
  length := h.length.trans (congrArg Array.size hlabelled).symm
  node := by
    intro r r' hcopy
    obtain ⟨node, node', hnode, hnode', hlike⟩ := h.node hcopy
    refine ⟨node, node', ?_, ?_, hlike⟩
    · exact (congrArg (·[r.node]?) hplain).trans hnode
    · exact (congrArg (·[r'.node]?) hlabelled).trans hnode'
  same := by
    intro r node hnode
    obtain ⟨r', form', hcopy, hnode'⟩ :=
      h.same ((congrArg (·[r.node]?) hplain).symm.trans hnode)
    exact ⟨r', form', hcopy, (congrArg (·[r'.node]?) hlabelled).trans hnode'⟩
  cells := hcells

theorem takeInfo (h : T.Mirrors) (kind : RuleKind) :
    Mirrors ⟨after (Grammar.takeInfo kind) T.plain, after (Grammar.takeInfo kind) T.labelled,
      T.originals⟩ :=
  h.of_nodes rfl rfl (congrArg (· + 1) h.nextId) h.cells

theorem addCell (h : T.Mirrors) (hcontent : content.Like T.Copy content') :
    Mirrors ⟨after (Grammar.addCell content) T.plain, after (Grammar.addCell content') T.labelled,
      T.originals⟩ := by
  refine h.of_nodes rfl rfl h.nextId fun cell => ?_
  change Option.Rel _ (T.plain.cells.push content)[cell]? (T.labelled.cells.push content')[cell]?
  rw [Array.getElem?_push, Array.getElem?_push, h.size_cells]
  split
  · exact .some hcontent
  · exact h.cells cell

theorem setCell (h : T.Mirrors) (cell : CellId) (hcontent : content.Like T.Copy content') :
    Mirrors ⟨T.plain.setCell cell content, T.labelled.setCell cell content', T.originals⟩ := by
  refine h.of_nodes rfl rfl h.nextId fun cell' => ?_
  simp only [Grammar.setCell, Array.getElem?_setIfInBounds, h.size_cells]
  split
  · split
    · exact .some hcontent
    · exact .none
  · exact h.cells cell'

/-- The second grammar may have one more rule if it is a copy of one of the first, which may have
one more rule as well. -/
theorem add {plain' : Grammar τ α σ} {r₀ : Rule} {node₀ : Node τ α} (h : T.Mirrors)
    (hkept : ∀ {r node}, T.plain.node? r = some node → plain'.node? r = some node)
    (hold : ∀ {r node}, plain'.node? r = some node →
      T.plain.node? r = some node ∨ r = r₀ ∧ node.info = info')
    (hcells : plain'.cells = T.plain.cells) (hid : plain'.nextId = T.plain.nextId)
    (hnode₀ : plain'.node? r₀ = some node₀) (hlike : node₀.Like T.Copy ⟨info', form'⟩) :
    Mirrors ⟨plain', after (Grammar.place info' form') T.labelled, T.originals ++ [r₀]⟩ := by
  let T' : Twins τ α σ :=
    ⟨plain', after (Grammar.place info' form') T.labelled, T.originals ++ [r₀]⟩
  have hle : ∀ {r r'}, T.Copy r r' → T'.Copy r r' := fun h => copy_append h rfl
  have hnew : T'.Copy r₀ ⟨T.labelled.nodes.size⟩ := by
    rw [← h.length]
    exact List.getElem?_concat_length ..
  constructor
  · exact hid.trans h.nextId
  · change (T.originals ++ [r₀]).length = (T.labelled.nodes.push _).size
    rw [List.length_append, Array.size_push, h.length]
    rfl
  · intro r r' hcopy
    by_cases hlt : r'.node < T.originals.length
    · obtain ⟨node, node', hnode, hnode', hlike'⟩ :=
        h.node ((List.getElem?_append_left hlt).symm.trans hcopy)
      exact ⟨node, node', hkept hnode, Grammar.node?_place_of_some hnode', hlike'.mono hle⟩
    · -- the new rule is the only other copy
      have hlast : r'.node < (T.originals ++ [r₀]).length := (List.getElem?_eq_some_iff.1 hcopy).1
      rw [List.length_append, List.length_singleton] at hlast
      have hr' : r' = ⟨T.labelled.nodes.size⟩ := by
        rw [← h.length]
        exact congrArg Rule.mk (Nat.le_antisymm (Nat.le_of_lt_succ hlast) (Nat.le_of_not_lt hlt))
      subst hr'
      cases hcopy.unique hnew
      exact ⟨node₀, _, hnode₀, Grammar.node?_place_self .., hlike.mono hle⟩
  · intro r node hnode
    rcases hold hnode with hnode | ⟨rfl, hinfo⟩
    · obtain ⟨r', form', hcopy, hnode'⟩ := h.same hnode
      exact ⟨r', form', hle hcopy, Grammar.node?_place_of_some hnode'⟩
    · exact ⟨_, form', hnew, hinfo ▸ Grammar.node?_place_self ..⟩
  · intro cell
    change Option.Rel _ plain'.cells[cell]? T.labelled.cells[cell]?
    rw [hcells]
    have hcell := h.cells cell
    generalize T.plain.cells[cell]? = content, T.labelled.cells[cell]? = content' at hcell
    cases hcell with
    | none => exact .none
    | some hcontent => exact .some (hcontent.mono hle)

theorem place (h : T.Mirrors) (hinfo : info = info')
    (hform : ∀ crumbs, form.Like (.copies T.Copy) crumbs form') :
    (T.both (Grammar.place info form) (Grammar.place info' form') 1).Mirrors := by
  refine h.add Grammar.node?_place_of_some ?_ rfl rfl (Grammar.node?_place_self ..)
    ⟨hinfo ▸ .refl info, hform⟩
  intro r node hnode
  rw [Grammar.node?_place] at hnode
  split at hnode
  · next heq =>
    cases hnode
    exact Or.inr ⟨congrArg Rule.mk heq, hinfo⟩
  · exact Or.inl hnode

theorem make (h : T.Mirrors) (kind : RuleKind)
    (hform : ∀ crumbs, form.Like (.copies T.Copy) crumbs form') :
    (T.both (Grammar.make kind form) (Grammar.make kind form') 1).Mirrors :=
  (h.takeInfo kind).place (congrArg (RuleInfo.mk · kind none) h.nextId) hform

/-- A copy of a copy is a copy. -/
theorem relabelled (h : T.Mirrors) (hcopy : T.Copy r r') (label : String) :
    Mirrors ⟨T.plain, after (Grammar.labelled r' label) T.labelled, T.originals ++ [r]⟩ := by
  obtain ⟨node, node', hnode, hnode', hlike⟩ := h.node hcopy
  rw [Grammar.after_labelled hnode']
  exact h.add id Or.inl rfl rfl hnode ⟨⟨hlike.info.id, hlike.info.kind⟩, hlike.form⟩

theorem labelled (h : T.Mirrors) (hcopy : T.Copy r r') (label : String) :
    (T.both (Grammar.labelled r label) (Grammar.labelled r' label) 1).Mirrors := by
  obtain ⟨node, node', hnode, hnode', hlike⟩ := h.node hcopy
  rw [both, Grammar.after_labelled hnode, Grammar.after_labelled hnode']
  exact h.place (hlike.info.labelled_eq label) hlike.form

theorem reference (h : T.Mirrors) (kind : RuleKind) (weak : Bool)
    (hcontent : content.Like T.Copy content') :
    (T.both (do
      let info ← Grammar.takeInfo kind
      let cell ← Grammar.addCell content
      Grammar.place info (.reference cell weak)) (do
      let info ← Grammar.takeInfo kind
      let cell ← Grammar.addCell content'
      Grammar.place info (.reference cell weak)) 1).Mirrors := by
  have hadded := (h.takeInfo kind).addCell hcontent
  have hform : ∀ crumbs, (.reference T.plain.cells.size weak : Form τ α).Like (.copies T.Copy)
      crumbs (.reference T.labelled.cells.size weak) := by
    intro crumbs
    rw [h.size_cells]
    exact .reference weak trivial
  exact hadded.place (congrArg (RuleInfo.mk · kind none) h.nextId) hform

theorem repetition (h : T.Mirrors) {item item' : Rule} (hcopy : T.Copy item item') (unit : α)
    (collect : List α → α) :
    (T.both (Grammar.repetition item unit collect)
      (Grammar.repetition item' unit collect) 4).Mirrors := by
  let T₁ := T.both (Grammar.make .repetition (.repetition item collect))
    (Grammar.make .repetition (.repetition item' collect)) 1
  let T₂ := T₁.both (Grammar.make .epsilon (.epsilon unit))
    (Grammar.make .epsilon (.epsilon unit)) 1
  let T₃ := T₂.both (Grammar.constant ⟨T₁.plain.nodes.size⟩ (collect []))
    (Grammar.constant ⟨T₁.labelled.nodes.size⟩ (collect [])) 1
  let T₄ := T₃.both (Grammar.oneOf ⟨T₂.plain.nodes.size⟩ [⟨T.plain.nodes.size⟩])
    (Grammar.oneOf ⟨T₂.labelled.nodes.size⟩ [⟨T.labelled.nodes.size⟩]) 1
  have h₁ : T₁.Mirrors := h.make _ fun _ => .repetition collect hcopy
  have h₂ : T₂.Mirrors := h₁.make _ fun _ => .epsilon unit
  have hmore : T₃.Copy ⟨T.plain.nodes.size⟩ ⟨T.labelled.nodes.size⟩ :=
    copy_both (copy_both h.copy_new)
  have h₃ : T₃.Mirrors := h₂.make _ fun _ => .map _ h₁.copy_new
  have h₄ : T₄.Mirrors := h₃.make _ fun _ => .oneOf (.cons h₂.copy_new (.cons hmore .nil))
  have heq : T.both (Grammar.repetition item unit collect)
      (Grammar.repetition item' unit collect) 4 = T₄ := by
    have hsize : ∀ (g : Grammar τ α σ) (kind : RuleKind) (form : Form τ α),
        (after (Grammar.make kind form) g).nodes.size = g.nodes.size + 1 :=
      fun _ _ _ => Array.size_push _
    have hsize₁ : T₁.plain.nodes.size = T.plain.nodes.size + 1 := hsize ..
    have hsize₂ : T₂.plain.nodes.size = T.plain.nodes.size + 2 :=
      (hsize ..).trans (congrArg _ hsize₁)
    have hsize₃ : T₃.plain.nodes.size = T.plain.nodes.size + 3 :=
      (hsize ..).trans (congrArg _ hsize₂)
    have horiginals : T.originals ++ (List.range 4).map (fun i => ⟨T.plain.nodes.size + i⟩)
        = T₄.originals := by
      change _ = T.originals ++ [⟨T.plain.nodes.size⟩] ++ [⟨T₁.plain.nodes.size⟩]
        ++ [⟨T₂.plain.nodes.size⟩] ++ [⟨T₃.plain.nodes.size⟩]
      rw [hsize₃, hsize₂, hsize₁]
      simp [List.range_succ]
    exact congrArg (Twins.mk _ _) horiginals
  exact heq ▸ h₄

theorem closeRecursive (h : T.Mirrors) {body body' : Rule} (hcopy : T.Copy body body')
    (opening : Grammar.Opening) (self' : Rule) : (T.both (Grammar.closeRecursive opening body)
      (Grammar.closeRecursive { opening with self := self' } body') 1).Mirrors := by
  have hset := h.setCell opening.cell (.recursive hcopy)
  exact hset.place rfl fun _ => .reference false trivial

/-- A declared rule and its copies refer to one cell. -/
theorem define {declared declared' definition definition' : Rule} {plain' labelled' : Grammar τ α σ}
    (h : T.Mirrors) (hdeclared : T.Copy declared declared') (hcopy : T.Copy definition definition')
    (hdefine : T.plain.define declared definition = .ok plain')
    (hdefine' : T.labelled.define declared' definition' = .ok labelled') :
    Mirrors ⟨plain', labelled', T.originals⟩ := by
  obtain ⟨⟨info, form⟩, ⟨info', form'⟩, hnode, hnode', hlike⟩ := h.node hdeclared
  have hform : form.Like (.copies T.Copy) .root form' := hlike.form .root
  simp only [Grammar.define, Grammar.form?, hnode, hnode', Option.map_some] at hdefine hdefine'
  cases hform with
  | @reference cell weak =>
      dsimp only at hdefine hdefine'
      have hcell := h.cells cell
      split at hdefine
      · next hundefined =>
        rw [hundefined] at hcell
        generalize hcontent' : T.labelled.cells[cell]? = content' at hcell
        cases hcell with
        | some hcontent =>
            cases hcontent
            rw [hcontent'] at hdefine'
            cases hdefine
            cases hdefine'
            exact h.setCell cell (.declared hcopy)
      all_goals cases hdefine
  | _ => cases hdefine

/-! ### What is kept -/

/-- Rules keep what their copies keep. -/
theorem keeps (h : T.Mirrors) (hcopy : T.Copy r r') :
    List.Forall₂ T.Copy (T.plain.keeps r) (T.labelled.keeps r') := by
  obtain ⟨⟨info, form⟩, ⟨info', form'⟩, hnode, hnode', hlike⟩ := h.node hcopy
  have hform : form.Like (.copies T.Copy) .root form' := hlike.form .root
  simp only [Grammar.keeps, Grammar.form?, hnode, hnode', Option.map_some]
  cases hform with
  | @reference cell weak =>
      cases weak with
      | true => exact .nil
      | false =>
          have htarget := h.target cell .root
          simp only [Grammar.cellRule?]
          generalize T.plain.target cell = target, T.labelled.target cell = target' at htarget
          cases htarget with
          | rule hrule => exact .cons hrule .nil
          | _ => exact .nil
  | map f hparts => exact .cons hparts .nil
  | repetition collect hparts => exact .cons hparts .nil
  | oneOf hparts => exact hparts
  | sequence build hparts => exact hparts
  | terminal | epsilon | endOfInput => exact .nil

theorem reaches_right {q : Rule} (h : T.Mirrors) (hpath : Relation.ReflTransGen T.plain.Keeps r q)
    (hcopy : T.Copy r r') : ∃ q', Relation.ReflTransGen T.labelled.Keeps r' q' ∧ T.Copy q q' := by
  induction hpath with
  | refl => exact ⟨r', .refl, hcopy⟩
  | tail _ hkeeps ih =>
      obtain ⟨q', hpath', hq⟩ := ih
      obtain ⟨q'', hkeeps', hq'⟩ := exists_copy_right (h.keeps hq) hkeeps
      exact ⟨q'', hpath'.tail hkeeps', hq'⟩

theorem reaches_left {q' : Rule} (h : T.Mirrors)
    (hpath : Relation.ReflTransGen T.labelled.Keeps r' q') (hcopy : T.Copy r r') :
    ∃ q, Relation.ReflTransGen T.plain.Keeps r q ∧ T.Copy q q' := by
  induction hpath with
  | refl => exact ⟨r, .refl, hcopy⟩
  | tail _ hkeeps ih =>
      obtain ⟨q, hpath', hq⟩ := ih
      obtain ⟨q₀, hkeeps', hq'⟩ := exists_copy_left (h.keeps hq) hkeeps
      exact ⟨q₀, hpath'.tail hkeeps', hq'⟩

/-- From any copy of a rule that keeps itself, one comes to another copy of it. There are only
finitely many, so one of them keeps itself. -/
theorem exists_circle (h : T.Mirrors) (hcircle : Relation.TransGen T.plain.Keeps r r)
    (hcopy : T.Copy r r') : ∃ r', T.Copy r r' ∧ Relation.TransGen T.labelled.Keeps r' r' := by
  by_contra hnone
  let Copies := { i : Fin T.originals.length // T.Copy r ⟨i⟩ }
  let next : Copies → Copies → Prop := fun i j =>
    Relation.TransGen T.labelled.Keeps ⟨j.1⟩ ⟨i.1⟩
  have : IsTrans Copies next := ⟨fun _ _ _ hij hjk => hjk.trans hij⟩
  have : Std.Irrefl next := ⟨fun i hi => hnone ⟨_, i.2, hi⟩⟩
  have hwf : WellFounded next := Finite.wellFounded_of_trans_of_irrefl next
  have hstep : ∀ i : Copies, ∃ j, next j i := by
    intro i
    obtain ⟨q, hkeeps, hpath⟩ := Relation.TransGen.head'_iff.1 hcircle
    obtain ⟨q', hkeeps', hq⟩ := exists_copy_right (h.keeps i.2) hkeeps
    obtain ⟨r'', hpath', hr⟩ := h.reaches_right hpath hq
    have hlt := (List.getElem?_eq_some_iff.1 hr).1
    exact ⟨⟨⟨r''.node, hlt⟩, hr⟩, Relation.TransGen.head' hkeeps' hpath'⟩
  have hlt := (List.getElem?_eq_some_iff.1 hcopy).1
  refine hwf.induction (C := fun _ => False) (⟨⟨r'.node, hlt⟩, hcopy⟩ : Copies) fun i ih => ?_
  obtain ⟨j, hj⟩ := hstep i
  exact ih j hj

theorem isStrongReference (h : T.Mirrors) (hcopy : T.Copy r r') :
    T.plain.isStrongReference r = T.labelled.isStrongReference r' := by
  obtain ⟨⟨info, form⟩, ⟨info', form'⟩, hnode, hnode', hlike⟩ := h.node hcopy
  have hform : form.Like (.copies T.Copy) .root form' := hlike.form .root
  simp only [Grammar.isStrongReference, Grammar.form?, hnode, hnode', Option.map_some]
  cases hform <;> rfl

/-- A rule refers to a cell if its copies do. -/
theorem reference_iff (h : T.Mirrors) (hcopy : T.Copy r r') {weak : Bool} :
    (∃ info, T.plain.node? r = some ⟨info, .reference cell weak⟩) ↔
      ∃ info, T.labelled.node? r' = some ⟨info, .reference cell weak⟩ := by
  obtain ⟨⟨info, form⟩, ⟨info', form'⟩, hnode, hnode', hlike⟩ := h.node hcopy
  have hform : form.Like (.copies T.Copy) .root form' := hlike.form .root
  rw [hnode, hnode']
  cases hform <;> simp

/-- **The same cells are kept** by roots and by copies of them. -/
theorem keepsCell_iff (h : T.Mirrors)
    (hroots : ∀ r ∈ roots, T.plain.Has r → ∃ r' ∈ roots', T.Copy r r')
    (hroots' : ∀ r' ∈ roots', T.labelled.Has r' → ∃ r ∈ roots, T.Copy r r') :
    T.plain.KeepsCell roots cell ↔ T.labelled.KeepsCell roots' cell := by
  constructor
  · rintro ⟨r₀, r, info, hstart, hpath, hnode⟩
    have hstart' : ∃ r₀', T.Copy r₀ r₀' ∧ (r₀' ∈ roots' ∨
        T.labelled.isStrongReference r₀' = true ∧ Relation.TransGen T.labelled.Keeps r₀' r₀') := by
      rcases hstart with hroot | ⟨hstrong, hcircle⟩
      · have hhas := Grammar.has_of_keeps_reaches hpath ⟨_, hnode⟩
        obtain ⟨r₀', hroot', hcopy⟩ := hroots r₀ hroot hhas
        exact ⟨r₀', hcopy, Or.inl hroot'⟩
      · obtain ⟨q, hkeeps, -⟩ := Relation.TransGen.head'_iff.1 hcircle
        obtain ⟨r₁, hcopy₁⟩ := h.copied (Grammar.has_of_keeps hkeeps)
        obtain ⟨r₀', hcopy, hcircle'⟩ := h.exists_circle hcircle hcopy₁
        exact ⟨r₀', hcopy, Or.inr ⟨h.isStrongReference hcopy ▸ hstrong, hcircle'⟩⟩
    obtain ⟨r₀', hcopy₀, hstart'⟩ := hstart'
    obtain ⟨r', hpath', hcopy⟩ := h.reaches_right hpath hcopy₀
    obtain ⟨info', hnode'⟩ := (h.reference_iff hcopy).1 ⟨info, hnode⟩
    exact ⟨r₀', r', info', hstart', hpath', hnode'⟩
  · rintro ⟨r₀', r', info', hstart', hpath', hnode'⟩
    have hstart : ∃ r₀, T.Copy r₀ r₀' ∧ (r₀ ∈ roots ∨
        T.plain.isStrongReference r₀ = true ∧ Relation.TransGen T.plain.Keeps r₀ r₀) := by
      rcases hstart' with hroot' | ⟨hstrong', hcircle'⟩
      · have hhas := Grammar.has_of_keeps_reaches hpath' ⟨_, hnode'⟩
        obtain ⟨r₀, hroot, hcopy⟩ := hroots' r₀' hroot' hhas
        exact ⟨r₀, hcopy, Or.inl hroot⟩
      · obtain ⟨q', hkeeps', hpath₀'⟩ := Relation.TransGen.head'_iff.1 hcircle'
        obtain ⟨r₀, hcopy⟩ := h.has.1 (Grammar.has_of_keeps hkeeps')
        obtain ⟨q, hkeeps, hq⟩ := exists_copy_left (h.keeps hcopy) hkeeps'
        obtain ⟨r₁, hpath₀, hcopy₁⟩ := h.reaches_left hpath₀' hq
        -- a rule is a copy of one rule only
        cases hcopy₁.unique hcopy
        exact ⟨_, hcopy, Or.inr ⟨h.isStrongReference hcopy ▸ hstrong', .head' hkeeps hpath₀⟩⟩
    obtain ⟨r₀, hcopy₀, hstart⟩ := hstart
    obtain ⟨r, hpath, hcopy⟩ := h.reaches_left hpath' hcopy₀
    obtain ⟨info, hnode⟩ := (h.reference_iff hcopy).2 ⟨info', hnode'⟩
    exact ⟨r₀, r, info, hstart, hpath, hnode⟩

theorem release (h : T.Mirrors)
    (hroots : ∀ r ∈ roots, T.plain.Has r → ∃ r' ∈ roots', T.Copy r r')
    (hroots' : ∀ r' ∈ roots', T.labelled.Has r' → ∃ r ∈ roots, T.Copy r r') :
    Mirrors ⟨T.plain.release roots, T.labelled.release roots', T.originals⟩ := by
  refine h.of_nodes (Grammar.release_nodes ..) (Grammar.release_nodes ..) ?_ fun cell => ?_
  · rw [Grammar.release_nextId, Grammar.release_nextId, h.nextId]
  · rw [Grammar.cells_release, Grammar.cells_release, h.keepsCell_iff hroots hroots']
    have hcell := h.cells cell
    generalize T.plain.cells[cell]? = content, T.labelled.cells[cell]? = content' at hcell
    cases hcell with
    | none => exact .none
    | some hcontent =>
        cases hcontent with
        | recursive hbody =>
            dsimp only [Option.map_some]
            split
            · exact .some (.recursive hbody)
            · exact .some .released
        | undefined => exact .some .undefined
        | declared hrule => exact .some (.declared hrule)
        | unfinished => exact .some .unfinished
        | released => exact .some .released
        | deferred supplier supplier' => exact .some (.deferred supplier supplier')
        | computing => exact .some .computing
        | supplied hrule => exact .some (.supplied hrule)
        | spoiled => exact .some .spoiled

end Mirrors

/-- An operation keeps twins alike. -/
theorem Change.mirrors (hchange : T.Change T') (h : T.Mirrors) : T'.Mirrors := by
  cases hchange with
  | make _ _ hform => exact h.make _ hform
  | repetition _ hcopy => exact h.repetition hcopy _ _
  | labelled _ hcopy => exact h.labelled hcopy _
  | relabelled _ hcopy => exact h.relabelled hcopy _
  | declare => exact h.reference _ _ .undefined
  | deferred => exact h.reference _ _ (.deferred _ _)
  | openRecursive => exact h.reference _ _ .unfinished
  | closeRecursive _ _ _ _ hcopy => exact h.closeRecursive hcopy _ _
  | define _ hdeclared hcopy hdefine hdefine' => exact h.define hdeclared hcopy hdefine hdefine'
  | supplying => exact h.setCell _ .computing
  | supplied _ _ hcopy => exact h.setCell _ (.supplied hcopy)
  | spoiled => exact h.setCell _ .spoiled
  | release hroots hroots' => exact h.release hroots hroots'

/-- Copies stay copies. -/
theorem Change.keepsCopy (hchange : T.Change T') (h : T.Copy r r') : T'.Copy r r' := by
  cases hchange with
  | make | repetition | labelled | declare | deferred | openRecursive | closeRecursive =>
      exact copy_both h
  | relabelled => exact copy_append h rfl
  | define | supplying | supplied | spoiled | release => exact h

theorem Evolves.mirrors (hevolves : T.Evolves T') (h : T.Mirrors) : T'.Mirrors := by
  induction hevolves with
  | refl => exact h
  | tail _ hchange ih => exact hchange.mirrors ih

theorem Evolves.keepsCopy (hevolves : T.Evolves T') (h : T.Copy r r') : T'.Copy r r' := by
  induction hevolves with
  | refl => exact h
  | tail _ hchange ih => exact hchange.keepsCopy ih

/-- **Twins are alike, however they are built.** -/
theorem Built.mirrors (h : T.Built) : T.Mirrors := by
  refine Evolves.mirrors h ⟨rfl, rfl, ?_, ?_, fun _ => .none⟩
  · intro r r' hcopy
    cases hcopy
  · intro r node hnode
    cases hnode

/-! ### Building twice -/

theorem Change.evolves_plain (hchange : T.Change T') : T.plain.Evolves T'.plain := by
  cases hchange with
  | make hplain hparts => exact .single (.make hplain hparts)
  | repetition hitem => exact .single (.repetition hitem)
  | labelled hr => exact .single (.labelled hr)
  | relabelled => exact .refl
  | declare => exact .single .declare
  | deferred => exact .single .deferred
  | openRecursive => exact .single .openRecursive
  | closeRecursive hself hcell hbody => exact .single (.closeRecursive hself hcell hbody)
  | define hdefinition _ _ hdefine => exact .single (.define hdefinition hdefine)
  | supplying hcell => exact .single (.supplying hcell)
  | supplied hcell hmade => exact .single (.supplied hcell hmade)
  | spoiled hcell => exact .single (.spoiled hcell)
  | release => exact .single (.release _)

theorem Mirrors.exists_cell (h : T.Mirrors) (hcell : T.plain.cells[cell]? = some content) :
    ∃ content', T.labelled.cells[cell]? = some content' ∧ content.Like T.Copy content' := by
  have hcells := h.cells cell
  rw [hcell] at hcells
  generalize T.labelled.cells[cell]? = content' at hcells
  cases hcells with
  | some hcontent => exact ⟨_, rfl, hcontent⟩

theorem Change.evolves_labelled (hchange : T.Change T') (h : T.Mirrors) :
    T.labelled.Evolves T'.labelled := by
  cases hchange with
  | @make kind form form' hplain hparts hform =>
      refine .single (.make ?_ fun r' hr' => ?_)
      · cases hform .root with
        | repetition | reference => cases hplain
        | _ => rfl
      · obtain ⟨r, hr, hcopy⟩ := exists_copy_left (hform .root).parts hr'
        exact h.usable hcopy (hparts r hr)
  | repetition hitem hcopy => exact .single (.repetition (h.usable hcopy hitem))
  | labelled hr hcopy => exact .single (.labelled (h.usable hcopy hr))
  | relabelled hr hcopy => exact .single (.labelled (h.usable hcopy hr))
  | declare => exact .single .declare
  | deferred => exact .single .deferred
  | openRecursive => exact .single .openRecursive
  | closeRecursive _ hcell hbody hself' hcopy =>
      obtain ⟨_, hcell', hcontent⟩ := h.exists_cell hcell
      cases hcontent
      exact .single (.closeRecursive hself' hcell' (h.usable hcopy hbody))
  | define hdefinition _ hcopy _ hdefine' =>
      exact .single (.define (h.usable hcopy hdefinition) hdefine')
  | supplying hcell =>
      obtain ⟨_, hcell', hcontent⟩ := h.exists_cell hcell
      cases hcontent
      exact .single (.supplying hcell')
  | supplied hcell hmade hcopy =>
      obtain ⟨_, hcell', hcontent⟩ := h.exists_cell hcell
      cases hcontent
      exact .single (.supplied hcell' (h.usable hcopy hmade))
  | spoiled hcell =>
      obtain ⟨_, hcell', hcontent⟩ := h.exists_cell hcell
      cases hcontent
      exact .single (.spoiled hcell')
  | release => exact .single (.release _)

/-- **Building side by side is building twice.** -/
theorem Built.grammars (h : T.Built) : T.plain.Built ∧ T.labelled.Built := by
  induction h with
  | refl => exact ⟨.refl, .refl⟩
  | tail hevolves hchange ih =>
      have hmirrors := Built.mirrors hevolves
      exact ⟨ih.1.trans hchange.evolves_plain, ih.2.trans (hchange.evolves_labelled hmirrors)⟩

/-! ### Twins of every grammar -/

theorem Mirrors.exists_copies {rules : List Rule} (h : T.Mirrors)
    (hrules : ∀ r ∈ rules, T.plain.Has r) : ∃ rules', List.Forall₂ T.Copy rules rules' := by
  induction rules with
  | nil => exact ⟨[], .nil⟩
  | cons first rest ih =>
      obtain ⟨hfirst, hrest⟩ := List.forall_mem_cons.1 hrules
      obtain ⟨first', hcopy⟩ := h.copied hfirst
      obtain ⟨rest', hcopies⟩ := ih hrest
      exact ⟨first' :: rest', .cons hcopy hcopies⟩

theorem Mirrors.exists_form (h : T.Mirrors) (hparts : ∀ r ∈ form.parts, T.plain.Has r) :
    ∃ form', ∀ crumbs, form.Like (.copies T.Copy) crumbs form' := by
  obtain ⟨parts', hcopies⟩ := h.exists_copies hparts
  cases form with
  | terminal accept => exact ⟨_, fun _ => .terminal accept⟩
  | epsilon value => exact ⟨_, fun _ => .epsilon value⟩
  | endOfInput value => exact ⟨_, fun _ => .endOfInput value⟩
  | reference cell weak => exact ⟨_, fun _ => .reference weak trivial⟩
  | map inner f =>
      cases hcopies with
      | cons hinner _ => exact ⟨_, fun _ => .map f hinner⟩
  | repetition item collect =>
      cases hcopies with
      | cons hitem _ => exact ⟨_, fun _ => .repetition collect hitem⟩
  | oneOf first others =>
      cases hcopies with
      | cons hfirst hothers => exact ⟨_, fun _ => .oneOf (.cons hfirst hothers)⟩
  | sequence first others build =>
      cases hcopies with
      | cons hfirst hothers => exact ⟨_, fun _ => .sequence build (.cons hfirst hothers)⟩

theorem Mirrors.exists_define {declared definition definition' : Rule} {g : Grammar τ α σ}
    (h : T.Mirrors) (hdefine : T.plain.define declared definition = .ok g) :
    ∃ declared' g', T.Copy declared declared' ∧
      T.labelled.define declared' definition' = .ok g' := by
  obtain ⟨info, cell, weak, hnode, hcell, rfl⟩ := Grammar.of_define hdefine
  obtain ⟨declared', hdeclared⟩ := h.copied ⟨_, hnode⟩
  obtain ⟨info', hnode'⟩ := (h.reference_iff hdeclared).1 ⟨info, hnode⟩
  obtain ⟨_, hcell', hcontent⟩ := h.exists_cell hcell
  cases hcontent
  refine ⟨declared', T.labelled.setCell cell (.declared (some definition')), hdeclared, ?_⟩
  simp only [Grammar.define, Grammar.form?, hnode', Option.map_some, hcell']

/-- Whatever is done in the first grammar can be done in both. -/
theorem Mirrors.exists_change {g : Grammar τ α σ} (h : T.Mirrors) (hchange : T.plain.Change g) :
    ∃ T' : Twins τ α σ, T.Change T' ∧ T'.plain = g := by
  cases hchange with
  | make hplain hparts =>
      obtain ⟨form', hform⟩ := h.exists_form fun r hr => (hparts r hr).has
      exact ⟨_, .make hplain hparts hform, rfl⟩
  | repetition hitem =>
      obtain ⟨item', hcopy⟩ := h.copied hitem.has
      exact ⟨_, .repetition hitem hcopy, rfl⟩
  | labelled hr =>
      obtain ⟨r', hcopy⟩ := h.copied hr.has
      exact ⟨_, .labelled hr hcopy, rfl⟩
  | declare => exact ⟨_, .declare, rfl⟩
  | @deferred supplier =>
      exact ⟨T.both (Grammar.deferred supplier) (Grammar.deferred supplier) 1, .deferred, rfl⟩
  | openRecursive => exact ⟨_, .openRecursive, rfl⟩
  | closeRecursive hself hcell hbody =>
      obtain ⟨body', hcopy⟩ := h.copied hbody.has
      obtain ⟨self', form', hself₀, hself'⟩ := h.same hself
      obtain ⟨info', hreference⟩ := (h.reference_iff hself₀).1 ⟨_, hself⟩
      cases hself'.symm.trans hreference
      exact ⟨_, .closeRecursive hself hcell hbody hself' hcopy, rfl⟩
  | define hdefinition hdefine =>
      obtain ⟨definition', hcopy⟩ := h.copied hdefinition.has
      obtain ⟨declared', g', hdeclared, hdefine'⟩ := h.exists_define hdefine
      exact ⟨_, .define hdefinition hdeclared hcopy hdefine hdefine', rfl⟩
  | supplying hcell => exact ⟨_, .supplying hcell, rfl⟩
  | supplied hcell hmade =>
      obtain ⟨made', hcopy⟩ := h.copied hmade.has
      exact ⟨_, .supplied hcell hmade hcopy, rfl⟩
  | spoiled hcell => exact ⟨_, .spoiled hcell, rfl⟩
  | release roots =>
      -- roots that are not there keep nothing, so they need no copies
      have hthere : ∀ r ∈ roots.filter T.plain.has, T.plain.Has r :=
        fun r hr => Grammar.has_iff.1 (List.mem_filter.1 hr).2
      obtain ⟨roots', hcopies⟩ := h.exists_copies hthere
      refine ⟨⟨T.plain.release roots, T.labelled.release roots', T.originals⟩,
        .release (fun r hr hhas => ?_) (fun r' hr' _ => ?_), rfl⟩
      · exact exists_copy_right hcopies (List.mem_filter.2 ⟨hr, Grammar.has_iff.2 hhas⟩)
      · obtain ⟨r, hr, hcopy⟩ := exists_copy_left hcopies hr'
        exact ⟨r, (List.mem_filter.1 hr).1, hcopy⟩

/-- **Every grammar that is built has twins**, which may go on to get labels anywhere. -/
theorem exists_of_built {g : Grammar τ α σ} (h : g.Built) :
    ∃ T : Twins τ α σ, T.Built ∧ T.plain = g := by
  induction h with
  | refl => exact ⟨_, .refl, rfl⟩
  | tail _ hchange ih =>
      obtain ⟨T, hT, rfl⟩ := ih
      obtain ⟨T', hchange', heq⟩ := (Built.mirrors hT).exists_change hchange
      exact ⟨T', hT.tail hchange', heq⟩

/-! ### Identities -/

theorem Mirrors.idOf_eq (h : T.Mirrors) (hcopy : T.Copy r r') :
    (T.plain.info r).id = (T.labelled.info r').id := by
  obtain ⟨node, node', hnode, hnode', hlike⟩ := h.node hcopy
  rw [Grammar.info, Grammar.info, hnode, hnode']
  exact hlike.info.id

/-- The rules of both grammars have the same identities. -/
theorem Mirrors.ids_eq (h : T.Mirrors) : T.plain.ids = T.labelled.ids := by
  have hmem : ∀ {g : Grammar τ α σ} {id : RuleId},
      id ∈ g.ids ↔ ∃ r node, g.node? r = some node ∧ node.info.id = id := by
    intro g id
    rw [Grammar.ids, List.mem_toFinset, List.mem_map]
    constructor
    · rintro ⟨node, hnode, hid⟩
      obtain ⟨i, hi⟩ := List.mem_iff_getElem?.1 hnode
      exact ⟨⟨i⟩, node, (Array.getElem?_toList ..).symm.trans hi, hid⟩
    · rintro ⟨r, node, hnode, hid⟩
      exact ⟨node, Array.mem_toList_iff.2 (Array.mem_of_getElem? hnode), hid⟩
  ext id
  rw [hmem, hmem]
  constructor
  · rintro ⟨r, node, hnode, rfl⟩
    obtain ⟨r', hcopy⟩ := h.copied ⟨node, hnode⟩
    obtain ⟨node₀, node', hnode₀, hnode', hlike⟩ := h.node hcopy
    cases hnode.symm.trans hnode₀
    exact ⟨r', node', hnode', hlike.info.id.symm⟩
  · rintro ⟨r', node', hnode', rfl⟩
    obtain ⟨r, hcopy⟩ := h.has.1 ⟨node', hnode'⟩
    obtain ⟨node, node₀, hnode, hnode₀, hlike⟩ := h.node hcopy
    cases hnode'.symm.trans hnode₀
    exact ⟨r, node, hnode, hlike.info.id⟩

end Twins

end LazyGrammar

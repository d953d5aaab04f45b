import LazyGrammar.Proofs.Analysis.Again
import LazyGrammar.Proofs.Rule.Definition
import LazyGrammar.Proofs.Search.Labels
import LazyGrammar.Proofs.Search.Wrappers

/-!
# LazyGrammar.Proofs.Rule.Identity

**An identity determines the rule.** Nodes that share an identity are of one kind, have children
of the same identities and give the same outcomes everywhere, but for the labels that failures
show. Only self references and copies under a label share an identity with another node: rules
that calls of constructors have given differ in it.

Design points:

* `Constructed` is the history of a grammar with the rules that calls of constructors have given.
  A recursive rule gets the identity of a self reference that is there already. It is a new one
  among the rules given, because none of these refers to a cell that is unfinished
  (`Identified.finished`).
* A rule and its self reference have forms that differ, but not in what a search does with them.
  So the searches of two nodes of one identity go side by side from their second state on, and
  there they are searches for the same rules in the same grammar.
* Nothing is asked of recursive rules. A reference to one that has been released fails in the same
  way from every node.
-/

namespace LazyGrammar

variable {τ α σ κ ρ : Type}

namespace Grammar

variable {g g' g'' : Grammar τ α σ} {r r' : Rule} {info : RuleInfo} {form : Form τ α}
  {node node' : Node τ α} {cell : CellId} {content : Cell σ} {given : Set Rule}

/-! ### Calls of constructors -/

/-- The rules of a later grammar that are not in an earlier one. -/
def newIn (g g' : Grammar τ α σ) : Set Rule := {r | g'.Has r ∧ ¬ g.Has r}

/-- A grammar that operations have built, and the rules that calls of constructors have given.
What opens a recursive rule only gives a reference to it, and the rule itself comes in the end. A
copy under a label is not a new rule. -/
inductive Constructed : Grammar τ α σ → Set Rule → Prop
  | start : Constructed empty ∅
  | labelled {g : Grammar τ α σ} {given : Set Rule} {r : Rule} (before : Constructed g given)
      (hr : g.Usable r) (label : String) : Constructed (after (labelled r label) g) given
  | openRecursive {g : Grammar τ α σ} {given : Set Rule} (before : Constructed g given) :
      Constructed (after openRecursive g) given
  | change {g g' : Grammar τ α σ} {given : Set Rule} (before : Constructed g given)
      (hchange : g.Change g')
      (hlabelled : ∀ r label, g.Usable r → g' ≠ after (Grammar.labelled r label) g)
      (hopen : g' ≠ after Grammar.openRecursive g) : Constructed g' (given ∪ g.newIn g')

theorem Constructed.built (h : g.Constructed given) : g.Built := by
  induction h with
  | start => exact .refl
  | labelled _ hr label ih => exact ih.tail (.labelled hr)
  | openRecursive _ ih => exact ih.tail .openRecursive
  | change _ hchange _ _ ih => exact ih.tail hchange

/-- Every grammar that operations build is the end of such a history. -/
theorem Built.exists_constructed (h : g.Built) : ∃ given, g.Constructed given := by
  induction h with
  | refl => exact ⟨∅, .start⟩
  | @tail g₁ g₂ _ hchange ih =>
    obtain ⟨given, hbefore⟩ := ih
    by_cases hlabelled : ∃ r label, g₁.Usable r ∧ g₂ = after (labelled r label) g₁
    · obtain ⟨r, label, hr, rfl⟩ := hlabelled
      exact ⟨given, hbefore.labelled hr label⟩
    by_cases hopen : g₂ = after openRecursive g₁
    · exact ⟨given, hopen ▸ hbefore.openRecursive⟩
    · exact ⟨_, hbefore.change hchange
        (fun r label hr heq => hlabelled ⟨r, label, hr, heq⟩) hopen⟩

theorem newIn_of_nodes (hnodes : g'.nodes = g.nodes) : g.newIn g' = ∅ := by
  ext r
  simp [newIn, Has, node?, hnodes]

theorem not_has_size (g : Grammar τ α σ) : ¬ g.Has ⟨g.nodes.size⟩ := by
  rw [← has_iff, has, decide_eq_true_iff]
  exact Nat.lt_irrefl _

theorem newIn_place (g : Grammar τ α σ) (info : RuleInfo) (form : Form τ α) :
    g.newIn (after (place info form) g) = {⟨g.nodes.size⟩} := by
  ext r
  constructor
  · rintro ⟨⟨node, hnode⟩, hnew⟩
    obtain ⟨hr, -⟩ | ⟨-, hold⟩ := of_node?_place hnode
    · exact hr
    · exact absurd ⟨node, hold⟩ hnew
  · rintro rfl
    exact ⟨⟨_, node?_place_self g info form⟩, g.not_has_size⟩

/-- What is new after two steps came with the first one or with the second one. -/
theorem union_newIn (hkept : ∀ r, g.Has r → g'.Has r) (hkept' : ∀ r, g'.Has r → g''.Has r) :
    given ∪ g.newIn g' ∪ g'.newIn g'' = given ∪ g.newIn g'' := by
  ext r
  have := hkept r
  have := hkept' r
  simp only [newIn, Set.mem_union, Set.mem_ofPred_eq]
  tauto

/-! ### The invariant -/

/-- What identities say of the nodes of a grammar, and of the rules that constructors have
given. -/
structure Identified (g : Grammar τ α σ) (given : Set Rule) : Prop where
  has : ∀ {r}, r ∈ given → g.Has r
  id_lt : ∀ {r node}, g.node? r = some node → node.info.id < g.nextId
  kind : ∀ {r r' node node'}, g.node? r = some node → g.node? r' = some node' →
    node.info.id = node'.info.id → node.info.kind = node'.info.kind
  distinct : ∀ {r r' node node'}, r ∈ given → r' ∈ given → g.node? r = some node →
    g.node? r' = some node' → node.info.id = node'.info.id → r = r'
  /-- No rule that was given waits for the end of its own constructor. -/
  finished : ∀ {r info cell weak}, r ∈ given → g.node? r = some ⟨info, .reference cell weak⟩ →
    g.cells[cell]? ≠ some .unfinished
  /-- All other nodes are self references or copies. -/
  rest : ∀ {r node}, g.node? r = some node → r ∉ given →
    node.info.label ≠ none ∨ ∃ cell, node.form = .reference cell true

namespace Identified

/-- Cells and counters may change as long as no given rule gets unfinished. -/
theorem of_nodes (h : g.Identified given) (hnodes : g'.nodes = g.nodes)
    (hid : g.nextId ≤ g'.nextId)
    (hcells : ∀ {r info cell weak}, g.node? r = some ⟨info, .reference cell weak⟩ →
      g'.cells[cell]? = some .unfinished → g.cells[cell]? = some .unfinished) :
    g'.Identified given := by
  have hnode : ∀ {r node}, g'.node? r = some node → g.node? r = some node := by
    intro r node hr
    rwa [node?, hnodes] at hr
  constructor
  · intro r hr
    rw [Has, node?, hnodes]
    exact h.has hr
  · exact fun hr => (h.id_lt (hnode hr)).trans_le hid
  · exact fun hr hr' => h.kind (hnode hr) (hnode hr')
  · exact fun hgiven hgiven' hr hr' => h.distinct hgiven hgiven' (hnode hr) (hnode hr')
  · exact fun hgiven hr hcell => h.finished hgiven (hnode hr) (hcells (hnode hr) hcell)
  · exact fun hr => h.rest (hnode hr)

theorem takeInfo (h : g.Identified given) (kind : RuleKind) :
    (after (takeInfo kind) g).Identified given :=
  h.of_nodes rfl (Nat.le_succ _) fun _ => id

theorem setCell (h : g.Identified given) (hcontent : content ≠ .unfinished) (cell : CellId) :
    (g.setCell cell content).Identified given := by
  refine h.of_nodes rfl (Nat.le_refl _) fun {r info cell' weak} _ hcell => ?_
  rw [Grammar.setCell, Array.getElem?_setIfInBounds] at hcell
  split at hcell
  · split at hcell <;> cases hcell
    exact absurd rfl hcontent
  · exact hcell

/-- A new cell is not one that a node refers to. -/
theorem addCell (h : g.Identified given) (hg : g.Consistent) (content : Cell σ) :
    (after (addCell content) g).Identified given := by
  refine h.of_nodes rfl (Nat.le_refl _) fun {r info cell weak} hnode hcell => ?_
  have hpush : (after (Grammar.addCell content) g).cells = g.cells.push content := rfl
  rwa [hpush, Array.getElem?_push, if_neg (Nat.ne_of_lt (hg.cell hnode))] at hcell

theorem release (h : g.Identified given) (roots : List Rule) :
    (g.release roots).Identified given := by
  refine h.of_nodes (release_nodes ..) (release_nextId ..).ge fun {r info cell weak} _ hcell => ?_
  rcases g.cell_release roots cell with hsame | ⟨hreleased, -⟩
  · exact hsame.symm.trans hcell
  · cases hreleased.symm.trans hcell

/-- A node may be added to those of its kind. It may be given by a constructor if no rule given
before has its identity, and need not be if it is a self reference or a copy. -/
theorem place {given' : Set Rule} (h : g.Identified given) (hid : info.id < g.nextId)
    (hkind : ∀ {r node}, g.node? r = some node → node.info.id = info.id →
      node.info.kind = info.kind)
    (hgiven : ∀ r, r ≠ ⟨g.nodes.size⟩ → (r ∈ given' ↔ r ∈ given))
    (hnew : ⟨g.nodes.size⟩ ∈ given' →
      (∀ {r node}, r ∈ given → g.node? r = some node → node.info.id ≠ info.id) ∧
        ∀ cell weak, form = .reference cell weak → g.cells[cell]? ≠ some .unfinished)
    (hrest : ⟨g.nodes.size⟩ ∉ given' → info.label ≠ none ∨ ∃ cell, form = .reference cell true) :
    (after (place info form) g).Identified given' := by
  constructor
  · intro r hr
    by_cases heq : r = ⟨g.nodes.size⟩
    · exact heq ▸ ⟨_, node?_place_self g info form⟩
    · obtain ⟨node, hnode⟩ := h.has ((hgiven r heq).1 hr)
      exact ⟨node, node?_place_of_some hnode⟩
  · intro r node hr
    obtain ⟨-, rfl⟩ | ⟨-, hold⟩ := of_node?_place hr
    · exact hid
    · exact h.id_lt hold
  · intro r r' node node' hr hr' heq
    obtain ⟨-, rfl⟩ | ⟨-, hold⟩ := of_node?_place hr <;>
      obtain ⟨-, rfl⟩ | ⟨-, hold'⟩ := of_node?_place hr'
    · rfl
    · exact (hkind hold' heq.symm).symm
    · exact hkind hold heq
    · exact h.kind hold hold' heq
  · intro r r' node node' hmem hmem' hr hr' heq
    obtain ⟨rfl, rfl⟩ | ⟨hne, hold⟩ := of_node?_place hr <;>
      obtain ⟨rfl, rfl⟩ | ⟨hne', hold'⟩ := of_node?_place hr'
    · rfl
    · exact absurd heq.symm ((hnew hmem).1 ((hgiven r' hne').1 hmem') hold')
    · exact absurd heq ((hnew hmem').1 ((hgiven r hne).1 hmem) hold)
    · exact h.distinct ((hgiven r hne).1 hmem) ((hgiven r' hne').1 hmem') hold hold' heq
  · intro r info' cell weak hmem hr
    obtain ⟨rfl, heq⟩ | ⟨hne, hold⟩ := of_node?_place hr
    · cases heq
      exact (hnew hmem).2 cell weak rfl
    · exact h.finished ((hgiven r hne).1 hmem) hold
  · intro r node hr hmem
    obtain ⟨rfl, rfl⟩ | ⟨hne, hold⟩ := of_node?_place hr
    · exact hrest hmem
    · exact h.rest hold (mt (hgiven r hne).2 hmem)

/-- A rule that is given has an identity that no rule given before has. -/
theorem place_given (h : g.Identified given) (hid : info.id < g.nextId)
    (hkind : ∀ {r node}, g.node? r = some node → node.info.id = info.id →
      node.info.kind = info.kind)
    (hnew : ∀ {r node}, r ∈ given → g.node? r = some node → node.info.id ≠ info.id)
    (hfinished : ∀ cell weak, form = .reference cell weak → g.cells[cell]? ≠ some .unfinished) :
    (after (Grammar.place info form) g).Identified
      (given ∪ g.newIn (after (Grammar.place info form) g)) := by
  rw [newIn_place]
  refine h.place hid hkind (fun r hr => ?_) (fun _ => ⟨hnew, hfinished⟩) fun hmem => ?_
  · simp [hr]
  · exact absurd (.inr rfl) hmem

/-- A self reference or a copy is not given. -/
theorem place_along (h : g.Identified given) (hid : info.id < g.nextId)
    (hkind : ∀ {r node}, g.node? r = some node → node.info.id = info.id →
      node.info.kind = info.kind)
    (hrest : info.label ≠ none ∨ ∃ cell, form = .reference cell true) :
    (after (Grammar.place info form) g).Identified given := by
  refine h.place hid hkind (fun r _ => Iff.rfl) (fun hmem => ?_) fun _ => hrest
  exact absurd (h.has hmem) g.not_has_size

/-- The next identity is new. -/
theorem id_ne_nextId (h : g.Identified given) (hnode : g.node? r = some node) :
    node.info.id ≠ g.nextId := Nat.ne_of_lt (h.id_lt hnode)

/-- A constructor takes the next identity for its rule. -/
theorem make (h : g.Identified given) (kind : RuleKind)
    (hform : ∀ cell weak, form ≠ .reference cell weak) :
    (after (make kind form) g).Identified (given ∪ g.newIn (after (Grammar.make kind form) g)) :=
  (h.takeInfo kind).place_given (Nat.lt_succ_self _)
    (fun hnode heq => absurd heq (h.id_ne_nextId hnode)) (fun _ hnode => h.id_ne_nextId hnode)
    fun cell weak heq => absurd heq (hform cell weak)

theorem reference (h : g.Identified given) (hg : g.Consistent) (kind : RuleKind) (weak : Bool)
    (hcontent : content ≠ .unfinished) :
    (after (do
      let info ← Grammar.takeInfo kind
      let cell ← Grammar.addCell content
      Grammar.place info (.reference cell weak)) g).Identified
        (given ∪ g.newIn (after (do
          let info ← Grammar.takeInfo kind
          let cell ← Grammar.addCell content
          Grammar.place info (.reference cell weak)) g)) := by
  refine ((h.takeInfo kind).addCell (hg.takeInfo kind) content).place_given (Nat.lt_succ_self _)
    (fun hnode heq => absurd heq (h.id_ne_nextId hnode)) (fun _ hnode => h.id_ne_nextId hnode)
    fun cell weak heq => ?_
  cases heq
  exact fun hcell => hcontent (Option.some.inj (Array.getElem?_push_size.symm.trans hcell))

/-- A self reference takes the next identity as well. -/
theorem openRecursive (h : g.Identified given) (hg : g.Consistent) :
    (after openRecursive g).Identified given :=
  ((h.takeInfo .recursive).addCell (hg.takeInfo .recursive) .unfinished).place_along
    (Nat.lt_succ_self _) (fun hnode heq => absurd heq (h.id_ne_nextId hnode)) (.inr ⟨_, rfl⟩)

theorem labelled (h : g.Identified given) (hr : g.Usable r) (label : String) :
    (after (labelled r label) g).Identified given := by
  obtain ⟨node, hnode, -⟩ := hr
  rw [after_labelled hnode]
  exact h.place_along (h.id_lt hnode) (fun hnode' heq => h.kind hnode' hnode heq) (.inl nofun)

/-- The rule that ends a recursion has the identity of its self reference. No rule given before
has it: it would refer to the same cell, which is unfinished. -/
theorem closeRecursive (h : g.Identified given) (hg : g.Consistent) {opening : Opening}
    {body : Rule}
    (hself : g.node? opening.self = some ⟨opening.info, .reference opening.cell true⟩)
    (hcell : g.cells[opening.cell]? = some .unfinished) :
    (after (closeRecursive opening body) g).Identified
      (given ∪ g.newIn (after (Grammar.closeRecursive opening body) g)) := by
  have hcontent : (.recursive body : Cell σ) ≠ .unfinished := nofun
  refine (h.setCell hcontent opening.cell).place_given (h.id_lt hself)
    (fun hnode heq => h.kind hnode hself heq) (fun {r node} hgiven hnode heq => ?_)
    fun cell weak heq => ?_
  · obtain ⟨info, form⟩ := node
    obtain ⟨cell, weak, rfl, hsame⟩ : ∃ cell weak, form = .reference cell weak ∧
        cell = opening.cell := by
      rcases hg.agree hnode hself heq with rfl | ⟨cell, weak, _, rfl, hform⟩
      · exact ⟨_, _, rfl, rfl⟩
      · cases hform
        exact ⟨_, _, rfl, rfl⟩
    exact h.finished hgiven hnode (hsame ▸ hcell)
  · cases heq
    rw [cells_setCell hcell]
    exact nofun

/-- A repetition calls four constructors. -/
theorem repetition (h : g.Identified given) (item : Rule) (unit : α) (collect : List α → α) :
    (after (repetition item unit collect) g).Identified
      (given ∪ g.newIn (after (Grammar.repetition item unit collect) g)) := by
  let g₁ := after (Grammar.make .repetition (.repetition item collect)) g
  let g₂ := after (Grammar.make .epsilon (.epsilon unit)) g₁
  let g₃ := after (constant ⟨g₁.nodes.size⟩ (collect [])) g₂
  let g₄ := after (oneOf ⟨g₂.nodes.size⟩ [⟨g.nodes.size⟩]) g₃
  have hkept : ∀ {g g' : Grammar τ α σ}, g.Precedes g' → ∀ r, g.Has r → g'.Has r :=
    fun h r => Exists.imp fun _ => h.node
  have h₁₂ : g₁.Precedes g₂ := .make ..
  have h₂₃ : g₂.Precedes g₃ := .make ..
  have h₃₄ : g₃.Precedes g₄ := .make ..
  have h₁ : g₁.Identified (given ∪ g.newIn g₁) := h.make _ nofun
  have h₂ : g₂.Identified (given ∪ g.newIn g₁ ∪ g₁.newIn g₂) := h₁.make _ nofun
  have h₃ : g₃.Identified (given ∪ g.newIn g₁ ∪ g₁.newIn g₂ ∪ g₂.newIn g₃) := h₂.make _ nofun
  have h₄ : g₄.Identified (given ∪ g.newIn g₁ ∪ g₁.newIn g₂ ∪ g₂.newIn g₃ ∪ g₃.newIn g₄) :=
    h₃.make _ nofun
  rwa [union_newIn (hkept (.make ..)) (hkept h₁₂),
    union_newIn (hkept (.trans (.make ..) h₁₂)) (hkept h₂₃),
    union_newIn (hkept (.trans (.trans (.make ..) h₁₂) h₂₃)) (hkept h₃₄)] at h₄

end Identified

/-- **Every operation keeps what identities say.** -/
theorem Constructed.identified (h : g.Constructed given) : g.Identified given := by
  induction h with
  | start => constructor <;> intros <;> contradiction
  | labelled _ hr label ih => exact ih.labelled hr label
  | openRecursive before ih => exact ih.openRecursive before.built.consistent
  | @change g g' given before hchange hlabelled hopen ih =>
    have hg := before.built.consistent
    -- what only changes cells gives no rule
    have hcells : g'.nodes = g.nodes → g'.Identified given → g'.Identified (given ∪ g.newIn g') :=
      fun hnodes h => by rwa [newIn_of_nodes hnodes, Set.union_empty]
    have hset : ∀ cell content, content ≠ .unfinished → g' = g.setCell cell content →
        g'.Identified (given ∪ g.newIn g') := by
      rintro cell content hcontent rfl
      exact hcells rfl (ih.setCell hcontent cell)
    cases hchange with
    | make hform =>
        refine ih.make _ fun cell weak heq => ?_
        subst heq
        cases hform
    | repetition => exact ih.repetition ..
    | labelled hr => exact absurd rfl (hlabelled _ _ hr)
    | declare => exact ih.reference hg _ _ nofun
    | deferred => exact ih.reference hg _ _ nofun
    | openRecursive => exact absurd rfl hopen
    | closeRecursive hself hcell => exact ih.closeRecursive hg hself hcell
    | define _ hdefine =>
        obtain ⟨_, _, _, -, -, heq⟩ := of_define hdefine
        exact hset _ (.declared _) nofun heq
    | supplying => exact hset _ .computing nofun rfl
    | supplied => exact hset _ (.supplied _) nofun rfl
    | spoiled => exact hset _ .spoiled nofun rfl
    | release roots => exact hcells (release_nodes ..) (ih.release roots)

end Grammar

/-! ### Searches for one rule -/

section Streams

variable {src : Source τ} {reader : Reader τ α κ ρ} {M : κ → κ → Prop} {A : ρ → ρ → Prop}
  {g : Grammar τ α σ} {r r' : Rule} {node node' : Node τ α} {info info' : RuleInfo}
  {form form' : Form τ α} {s s' : State τ α} {m m' : κ} {steps outcomes : Nat}

/-- A grammar is like itself. -/
theorem Grammar.like_self (g : Grammar τ α σ) : g.Like (.copies Eq) g where
  call := by
    rintro r _ crumbs p rfl
    cases hnode : g.node? r with
    | none => exact .missing hnode hnode
    | some node =>
        cases hheld : crumbs.holds node.info.id p.consumed with
        | true => exact .refused hnode hnode rfl (.refl _) hheld
        | false =>
            exact .entered hnode hnode rfl (.refl _) hheld
              (Form.like_self (fun _ _ => rfl) fun _ _ _ => trivial)
  target := by
    intro crumbs cell _
    cases g.target cell with
    | rule r => exact .rule rfl
    | fault f => exact .fault f
    | pending supplier => exact .pending supplier supplier
    | circular => exact .circular

/-- Forms of one rule are used alike. Whether a reference holds its rule makes no difference. -/
theorem Machine.useForm_agree (hform : form.Agree form') (hinfo : info.Alike info') (p : Place)
    (crumbs : Crumbs) (h : s.Beside (.copies Eq) s') :
    (useForm src info p crumbs s form).Like (.copies Eq) (useForm src info' p crumbs s' form') := by
  rcases hform with rfl | ⟨cell, weak, weak', rfl, rfl⟩
  · exact useForm_like (Form.like_self (fun _ _ => rfl) fun _ _ _ => trivial) hinfo p h
  · exact h.goTo (.follow p trivial)

/-- Rules of one identity are refused together, or entered with forms that are used alike. -/
theorem Machine.call_agree (hnode : g.node? r = some node) (hnode' : g.node? r' = some node')
    (hinfo : node.info.Alike node'.info) (hform : node.form.Agree node'.form) (p : Place)
    (crumbs : Crumbs) (h : s.Beside (.copies Eq) s') :
    (call g src r p crumbs s).Like (.copies Eq) (call g src r' p crumbs s') := by
  simp only [call, hnode, hnode', ← hinfo.id]
  split
  · exact .next ((h.record (.leftRecursion hinfo _ _)).single (Outcome.like_circle hinfo p))
  · exact .next (useForm_agree hform hinfo p _ (h.record (.entered hinfo _ _)))

/-- Walks go side by side from their second step on if their first steps come to the same. -/
theorem explore_like_of_step (hreader : reader.Respects RuleInfo.Alike M A) (hm : M m m')
    (hstep : (Machine.step g src s).Like (.copies Eq) (Machine.step g src s')) :
    (explore g src reader steps outcomes m s).Like (.copies Eq) M A
      (explore g src reader steps outcomes m' s') := by
  match steps, outcomes with
  | _, 0 => exact .unfinished
  | 0, _ + 1 => exact .unfinished
  | steps + 1, outcomes + 1 =>
      have hrun := Machine.run_succ_like hstep (Machine.run_like g.like_self src steps)
      exact explore_succ_like hreader hm hrun (explore_like hreader g.like_self src _ _)

/-- Walks that go side by side in one grammar, and then in those that it turns into. -/
theorem exploreThrough_cons_like {gs : List (Grammar τ α σ)}
    (hexplore : (explore g src reader steps outcomes m s).Like (.copies Eq) M A
      (explore g src reader steps outcomes m' s'))
    (hlater : ∀ {m m' : κ} {s s' : State τ α}, M m m' → s.Like (.copies Eq) s' →
      (exploreThrough src reader steps outcomes gs m s).Like (.copies Eq) M A
        (exploreThrough src reader steps outcomes gs m' s')) :
    (exploreThrough src reader steps outcomes (g :: gs) m s).Like (.copies Eq) M A
      (exploreThrough src reader steps outcomes (g :: gs) m' s') := by
  rw [exploreThrough, exploreThrough]
  generalize explore g src reader steps outcomes m s = found,
    explore g src reader steps outcomes m' s' = found' at hexplore
  cases hexplore with
  | waiting cell hm hs => exact hlater hm hs
  | answer hr hs => exact .answer hr hs
  | fault f => exact .fault f
  | circular => exact .circular
  | unfinished => exact .unfinished

theorem exploreThrough_like_self (hreader : reader.Respects RuleInfo.Alike M A)
    (gs : List (Grammar τ α σ)) (hm : M m m') (hs : s.Like (.copies Eq) s') :
    (exploreThrough src reader steps outcomes gs m s).Like (.copies Eq) M A
      (exploreThrough src reader steps outcomes gs m' s') := by
  induction gs generalizing m m' s s' with
  | nil => exact .unfinished
  | cons g gs ih =>
      exact exploreThrough_cons_like (explore_like hreader g.like_self src steps outcomes hm hs) ih

end Streams

/-! ### Rules of one identity -/

/-- Only a repetition shows the information of its rule. -/
theorem Form.outcomes_alike {tokens : List τ} {use : Rule → Place → List (Outcome τ α)}
    {info info' : RuleInfo} (hinfo : info.Alike info')
    (hfits : ∀ r p, ∀ o ∈ use r p, o.Fits (Source.ofList tokens) p) (g : Grammar τ α σ)
    (place : Place) (form : Form τ α) :
    Outcome.AllLike RuleInfo.Alike (form.outcomes g tokens info use place)
      (form.outcomes g tokens info' use place) := by
  cases form with
  | repetition item collect =>
      have huse : ∀ q q' p, q = q' → (Source.ofList tokens).Leads place p →
          Outcome.AllLike RuleInfo.Alike (use q p) (use q' p) := by
        rintro q _ p rfl -
        exact .refl .refl _
      exact .runsWithin hfits huse rfl hinfo collect _ [] .refl
  | _ => exact .refl .refl _

/-- Forms of one rule have the same children. -/
theorem Form.Agree.children_eq {form form' : Form τ α} (h : form.Agree form')
    (g : Grammar τ α σ) : form.children g = form'.children g := by
  rcases h with rfl | ⟨cell, weak, weak', rfl, rfl⟩ <;> rfl

namespace Grammar

variable {g g' : Grammar τ α σ} {r r' : Rule} {node node' : Node τ α} {given : Set Rule}

/-- Two rules give the same outcomes up to labels, at every place, with every trail and for every
input: whoever keeps as many of them as they want keeps outcomes that are alike, and is told in
the same way that there are no more or that a search has failed. So it is while rules are made on
the way. -/
def StreamsAlike (g : Grammar τ α σ) (r r' : Rule) : Prop :=
  ∀ (gs : List (Grammar τ α σ)) (src : Source τ) (p : Place) (crumbs : Crumbs) (demand : Nat)
    (trace : Trace) (limit : Option Nat) (steps outcomes : Nat),
    Exploration.Like (.copies Eq) (Basket.Like RuleInfo.Alike) (SightingsLike RuleInfo.Alike)
      (exploreThrough src collect steps outcomes (g :: gs) ⟨#[], limit⟩
        ⟨.call r p crumbs, [], demand, trace⟩)
      (exploreThrough src collect steps outcomes (g :: gs) ⟨#[], limit⟩
        ⟨.call r' p crumbs, [], demand, trace⟩)

section Agree

variable (hnode : g.node? r = some node) (hnode' : g.node? r' = some node')
  (hinfo : node.info.Alike node'.info) (hform : node.form.Agree node'.form)

include hnode hnode' hinfo hform

theorem outcomes_of_agree (tokens : List τ) (place : Place) (crumbs : Crumbs) :
    Outcome.AllLike RuleInfo.Alike (g.outcomes tokens r place crumbs)
      (g.outcomes tokens r' place crumbs) := by
  have hsame : ∀ use, node.form.outcomes g tokens node'.info use place =
      node'.form.outcomes g tokens node'.info use place := by
    intro use
    rcases hform with heq | ⟨cell, weak, weak', heq, heq'⟩
    · rw [heq]
    · rw [heq, heq']
      rfl
  cases hheld : crumbs.holds node.info.id place.consumed with
  | true =>
      rw [outcomes_held hnode hheld, outcomes_held hnode' (hinfo.id ▸ hheld)]
      exact .circle hinfo place
  | false =>
      rw [outcomes_fresh hnode hheld, outcomes_fresh hnode' (hinfo.id ▸ hheld), ← hsame,
        ← hinfo.id]
      exact node.form.outcomes_alike hinfo (fun r p => g.outcomes_fits r p _) g place

theorem streamsAlike_of_agree : g.StreamsAlike r r' := by
  intro gs src p crumbs demand trace limit steps outcomes
  have hbeside : ∀ control control' : Control τ α,
      State.Beside (.copies Eq) ⟨control, [], demand, trace⟩ ⟨control', [], demand, trace⟩ :=
    fun _ _ => ⟨.nil, rfl, .refl .refl trace⟩
  refine exploreThrough_cons_like (explore_like_of_step collect_respects ⟨.nil, rfl⟩ ?_)
    (exploreThrough_like_self collect_respects gs)
  exact Machine.call_agree hnode hnode' hinfo hform p crumbs (hbeside _ _)

end Agree

/-- **An identity determines the rule.** In a grammar that operations have built, nodes with the
same identity are of one kind, have children of the same identities, and have the same outcomes up
to labels on every input, at every place and with every trail; whoever asks for these gets the
same, however much they ask for. The rules that calls of constructors have given differ in
identity, and all other nodes are self references or copies under a label. -/
theorem identity_determines_rule (h : g.Constructed given) :
    (∀ r r' node node', g.node? r = some node → g.node? r' = some node' →
      node.info.id = node'.info.id →
      node.info.kind = node'.info.kind ∧
      (node.form.children g).map g.idOf = (node'.form.children g).map g.idOf ∧
      (∀ (tokens : List τ) (place : Place) (crumbs : Crumbs),
        Outcome.AllLike RuleInfo.Alike (g.outcomes tokens r place crumbs)
          (g.outcomes tokens r' place crumbs)) ∧
      g.StreamsAlike r r') ∧
    Set.InjOn g.idOf given ∧
    ∀ r node, g.node? r = some node → r ∉ given →
      node.info.label ≠ none ∨ ∃ cell, node.form = .reference cell true := by
  have hids := h.identified
  refine ⟨fun r r' node node' hnode hnode' hid => ?_, fun r hr r' hr' hid => ?_,
    fun r node => hids.rest⟩
  · have hkind := hids.kind hnode hnode' hid
    have hform := h.built.consistent.agree hnode hnode' hid
    exact ⟨hkind, by rw [hform.children_eq g],
      outcomes_of_agree hnode hnode' ⟨hid, hkind⟩ hform,
      streamsAlike_of_agree hnode hnode' ⟨hid, hkind⟩ hform⟩
  · obtain ⟨node, hnode⟩ := hids.has hr
    obtain ⟨node', hnode'⟩ := hids.has hr'
    rw [g.idOf_eq hnode, g.idOf_eq hnode'] at hid
    exact hids.distinct hr hr' hnode hnode' hid

/-- What an operation adds first is given if it is neither a self reference nor under a label. -/
theorem Constructed.give (h : g.Constructed given) (hchange : g.Change g')
    (hnode : g'.node? ⟨g.nodes.size⟩ = some node) (hlabel : node.info.label = none)
    (hform : ∀ cell, node.form ≠ .reference cell true) :
    g'.Constructed (given ∪ g.newIn g') := by
  refine h.change hchange ?_ ?_
  · rintro r label ⟨node', hnode', -⟩ rfl
    rw [after_labelled hnode', node?_place_self] at hnode
    cases hnode
    cases hlabel
  · rintro rfl
    have hself : (after Grammar.openRecursive g).node? ⟨g.nodes.size⟩ =
        some ⟨⟨g.nextId, .recursive, none⟩, .reference g.cells.size true⟩ := node?_place_self ..
    cases hself.symm.trans hnode
    exact hform _ rfl

/-- A recursive rule that calls itself at once, and a copy of it. It calls itself through a copy
of its self reference. -/
def circling : Grammar Char Nat Unit where
  nodes := #[
    ⟨⟨0, .recursive, none⟩, .reference 0 true⟩,
    ⟨⟨0, .recursive, some "again"⟩, .reference 0 true⟩,
    ⟨⟨1, .map, none⟩, .map ⟨1⟩ .ok⟩,
    ⟨⟨0, .recursive, none⟩, .reference 0 false⟩,
    ⟨⟨0, .recursive, some "circle"⟩, .reference 0 false⟩]
  cells := #[.recursive ⟨2⟩]
  nextId := 2

theorem circling_constructed : circling.Constructed {⟨2⟩, ⟨3⟩} := by
  let opening : Opening := ⟨⟨0, .recursive, none⟩, 0, ⟨0⟩⟩
  let g₁ : Grammar Char Nat Unit := after Grammar.openRecursive empty
  let g₂ := after (Grammar.labelled ⟨0⟩ "again") g₁
  let g₃ := after (Grammar.make .map (.map ⟨1⟩ .ok)) g₂
  let g₄ := after (Grammar.closeRecursive opening ⟨2⟩) g₃
  have hnew₃ : g₂.newIn g₃ = {⟨2⟩} := newIn_place ..
  have hnew₄ : g₃.newIn g₄ = {⟨3⟩} := newIn_place ..
  have h₂ : g₂.Constructed ∅ := Constructed.start.openRecursive.labelled ⟨_, rfl, rfl⟩ "again"
  have h₃ : g₃.Constructed (∅ ∪ g₂.newIn g₃) := by
    refine h₂.give (.make rfl fun r hr => ?_) rfl rfl nofun
    cases List.mem_singleton.1 hr
    exact ⟨_, rfl, rfl⟩
  have h₄ : g₄.Constructed (∅ ∪ g₂.newIn g₃ ∪ g₃.newIn g₄) :=
    h₃.give (.closeRecursive rfl rfl ⟨_, rfl, rfl⟩) rfl rfl nofun
  rw [hnew₃, hnew₄, Set.empty_union, Set.singleton_union] at h₄
  exact h₄.labelled (r := ⟨3⟩) ⟨_, rfl, rfl⟩ "circle"

/-- The recursive rule, its self reference and the copies of both are one rule, whichever of them
is shown to be blamed. The rule and what it is made of are not. -/
theorem circling_identity_determines_rule :
    circling.Constructed {⟨2⟩, ⟨3⟩} ∧
    (circling.StreamsAlike ⟨3⟩ ⟨0⟩ ∧ circling.StreamsAlike ⟨3⟩ ⟨1⟩ ∧
      circling.StreamsAlike ⟨3⟩ ⟨4⟩) ∧
    (circling.outcomes ['x'] ⟨3⟩ ⟨0, 0⟩ (Crumbs.root.enter 0 0)
        = [.circle ⟨0, 0⟩ ⟨0, .recursive, none⟩] ∧
      circling.outcomes ['x'] ⟨4⟩ ⟨0, 0⟩ (Crumbs.root.enter 0 0)
        = [.circle ⟨0, 0⟩ ⟨0, .recursive, some "circle"⟩] ∧
      Outcome.AllLike RuleInfo.Alike (circling.outcomes ['x'] ⟨3⟩ ⟨0, 0⟩ (Crumbs.root.enter 0 0))
        (circling.outcomes ['x'] ⟨4⟩ ⟨0, 0⟩ (Crumbs.root.enter 0 0))) ∧
    circling.idOf ⟨2⟩ ≠ circling.idOf ⟨3⟩ := by
  obtain ⟨hsame, hdistinct, -⟩ := identity_determines_rule circling_constructed
  have hrule : ∀ r node, circling.node? r = some node → node.info.id = 0 →
      (∀ tokens place crumbs, Outcome.AllLike RuleInfo.Alike
        (circling.outcomes tokens ⟨3⟩ place crumbs) (circling.outcomes tokens r place crumbs)) ∧
      circling.StreamsAlike ⟨3⟩ r :=
    fun r node hnode hid => (hsame ⟨3⟩ r _ node rfl hnode hid.symm).2.2
  have hcopy := hrule ⟨4⟩ _ rfl rfl
  refine ⟨circling_constructed, ⟨(hrule _ _ rfl rfl).2, (hrule _ _ rfl rfl).2, hcopy.2⟩,
    ⟨rfl, rfl, hcopy.1 _ _ _⟩, fun hid => ?_⟩
  cases hdistinct (.inl rfl) (.inr rfl) hid

end Grammar

end LazyGrammar

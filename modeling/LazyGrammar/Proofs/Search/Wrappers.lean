import LazyGrammar.Proofs.Rule.Built
import LazyGrammar.Proofs.Search.Fidelity
import LazyGrammar.Proofs.Search.Refinement

/-!
# LazyGrammar.Proofs.Search.Wrappers

**Wrappers that change nothing are transparent.** In a grammar, any occurrences of rules may
be replaced by rules that only use them: a rule that is made when it is needed first, a map to
the same values, a choice without an alternative, a sequence of one rule. Every rule has the
same outcomes as before, in the same order, wherever it is called. Only which rule is blamed
for left recursion may differ (`wrappers_are_transparent`).

Design points:

* A wrapper has an identity of its own, so it is one more rule to be entered, and a circle may
  be noticed there first. It is noticed at the same call all the same: where a wrapper has been
  entered, so has the rule that it stands for, at the same position (`Follows`).
* This does not hold at the moment when a wrapper has been entered and what it wraps has not
  been called yet. The wrappers entered at such a moment are kept apart from the trail
  (`outcomes_same`); the rule that is about to be called is further inside than any of them.
-/

namespace LazyGrammar

variable {τ α σ : Type}

/-! ### Wrappers -/

/-- A form that does nothing but use a rule. -/
inductive Form.Wraps (g : Grammar τ α σ) (r : Rule) : Form τ α → Prop
  | reference {cell : CellId} {weak : Bool} (htarget : g.target cell = .rule r) :
      Wraps g r (.reference cell weak)
  | map {f : α → Except Fault α} (hf : ∀ v, f v = .ok v) : Wraps g r (.map r f)
  | oneOf : Wraps g r (.oneOf r [])
  | sequence {build : List α → Except Fault α} (hbuild : ∀ v, build [v] = .ok v) :
      Wraps g r (.sequence r [] build)

/-- A rule of the second grammar stands for one of the first: it is the copy of that rule, in
`n` wrappers around each other. A wrapper is not the copy of any rule, and no other rule has
its identity. -/
inductive StandsFor (g' : Grammar τ α σ) (copy : Rule → Rule → Prop) : Nat → Rule → Rule → Prop
  | copy {r r' : Rule} (h : copy r r') : StandsFor g' copy 0 r r'
  | wrapper {n : Nat} {r inner w : Rule} {node : Node τ α} (hnode : g'.node? w = some node)
      (hnew : ∀ q, ¬ copy q w)
      (hid : ∀ q node', g'.node? q = some node' → node'.info.id = node.info.id → q = w)
      (hform : node.form.Wraps g' inner) (h : StandsFor g' copy n r inner) :
      StandsFor g' copy (n + 1) r w

/-- A form in which each rule is replaced by one in its place, in what a reference leads to as
well. -/
inductive Form.Rewrites (instead : Rule → Rule → Prop) (g g' : Grammar τ α σ) :
    Form τ α → Form τ α → Prop
  | terminal (accept : τ → Except Fault (Option α)) :
      Rewrites instead g g' (.terminal accept) (.terminal accept)
  | epsilon (value : α) : Rewrites instead g g' (.epsilon value) (.epsilon value)
  | endOfInput (value : α) : Rewrites instead g g' (.endOfInput value) (.endOfInput value)
  | map {inner inner' : Rule} (f : α → Except Fault α) (h : instead inner inner') :
      Rewrites instead g g' (.map inner f) (.map inner' f)
  | repetition {item item' : Rule} (collect : List α → α) (h : instead item item') :
      Rewrites instead g g' (.repetition item collect) (.repetition item' collect)
  | reference {cell cell' : CellId} {r r' : Rule} (weak : Bool) (htarget : g.target cell = .rule r)
      (htarget' : g'.target cell' = .rule r') (h : instead r r') :
      Rewrites instead g g' (.reference cell weak) (.reference cell' weak)
  | oneOf {first first' : Rule} {others others' : List Rule} (h : instead first first')
      (hothers : List.Forall₂ instead others others') :
      Rewrites instead g g' (.oneOf first others) (.oneOf first' others')
  | sequence {first first' : Rule} {others others' : List Rule} (build : List α → Except Fault α)
      (h : instead first first') (hothers : List.Forall₂ instead others others') :
      Rewrites instead g g' (.sequence first others build) (.sequence first' others' build)

/-- The second grammar is the first one with wrappers around some occurrences of rules: it has
copies of rules, and wherever a rule is named, the copy names one that stands for it. Copies
share identities exactly where their originals do. -/
structure Grammar.Wrapped (g : Grammar τ α σ) (copy : Rule → Rule → Prop) (g' : Grammar τ α σ) :
    Prop where
  node : ∀ {r r'}, copy r r' → ∃ node node', g.node? r = some node ∧ g'.node? r' = some node' ∧
    node.form.Rewrites (fun q q' => ∃ n, StandsFor g' copy n q q') g g' node'.form
  id : ∀ {r r' q q'}, copy r r' → copy q q' →
    ((g.info r).id = (g.info q).id ↔ (g'.info r').id = (g'.info q').id)
  unique : ∀ {r q r'}, copy r r' → copy q r' → r = q

/-- On the second trail, whatever has been entered stands for something that has been entered
on the first one, and the copies of what has been entered there have been entered. -/
structure Follows (g g' : Grammar τ α σ) (copy : Rule → Rule → Prop) (path path' : Path) :
    Prop where
  stands : ∀ {n r r' c}, StandsFor g' copy n r r' → ((g'.info r').id, c) ∈ path' →
    ((g.info r).id, c) ∈ path
  copies : ∀ {r r' c}, copy r r' → ((g.info r).id, c) ∈ path → ((g'.info r').id, c) ∈ path'

/-- Wrappers that stand for a rule have been entered at a position, on the way to one that is
further inside, with only `n` of them left. -/
def Around (g' : Grammar τ α σ) (copy : Rule → Rule → Prop) (n : Nat) (r : Rule) (c : Nat)
    (outer : Path) : Prop :=
  ∀ e ∈ outer, ∃ m w, n < m ∧ StandsFor g' copy m r w ∧ e = ((g'.info w).id, c)

/-- The same outcomes in the same order, but for the rules that are blamed. -/
def SameButBlame (os os' : List (Outcome τ α)) : Prop :=
  List.Forall₂ (Outcome.Like fun _ _ => True) os os'

variable {g g' g₀ g₀' : Grammar τ α σ} {copy : Rule → Rule → Prop} {n m : Nat}
  {r r' q q' w root root' : Rule} {node : Node τ α} {form form' : Form τ α}
  {info info' : RuleInfo} {tokens : List τ} {place p : Place} {c : Nat} {path path' outer : Path}

theorem Grammar.info_eq (hnode : g.node? r = some node) : g.info r = node.info := by
  rw [Grammar.info, hnode]
  rfl

theorem Form.Wraps.unique (h : form.Wraps g r) (h' : form.Wraps g q) : r = q := by
  cases h with
  | reference htarget =>
      cases h' with
      | reference htarget' =>
          rw [htarget] at htarget'
          cases htarget'
          rfl
  | map | oneOf | sequence =>
      cases h'
      rfl

theorem Follows.nil (g g' : Grammar τ α σ) (copy : Rule → Rule → Prop) :
    Follows g g' copy [] [] :=
  ⟨fun _ h => (List.not_mem_nil h).elim, fun _ h => (List.not_mem_nil h).elim⟩

theorem Around.nil (g' : Grammar τ α σ) (copy : Rule → Rule → Prop) (n : Nat) (r : Rule) (c : Nat) :
    Around g' copy n r c [] :=
  fun _ h => (List.not_mem_nil h).elim

/-- One more wrapper is entered. -/
theorem Around.enter (h : Around g' copy (n + 1) r c outer) (hw : StandsFor g' copy (n + 1) r w) :
    Around g' copy n r c (((g'.info w).id, c) :: outer) := by
  intro e he
  rcases List.mem_cons.1 he with rfl | he
  · exact ⟨n + 1, w, Nat.lt_succ_self n, hw, rfl⟩
  · obtain ⟨m, w', hlt, hw', heq⟩ := h e he
    exact ⟨m, w', Nat.lt_of_succ_lt hlt, hw', heq⟩

namespace Grammar.Wrapped

variable (h : g.Wrapped copy g')

include h

/-- A rule stands for one rule only, in a number of wrappers that is its own. -/
theorem standsFor_unique (hr : StandsFor g' copy n r w) (hq : StandsFor g' copy m q w) :
    n = m ∧ r = q := by
  induction hr generalizing m with
  | copy hr =>
      cases hq with
      | copy hq => exact ⟨rfl, h.unique hr hq⟩
      | wrapper _ hnew => exact absurd hr (hnew _)
  | wrapper hnode hnew _ hform _ ih =>
      cases hq with
      | copy hq => exact absurd hq (hnew _)
      | wrapper hnode' _ _ hform' hq =>
          cases hnode.symm.trans hnode'
          cases hform.unique hform'
          obtain ⟨rfl, rfl⟩ := ih hq
          exact ⟨rfl, rfl⟩

/-- What stands for a rule is there, and so is the rule. -/
theorem exists_node (hr : StandsFor g' copy n r r') :
    ∃ node node', g.node? r = some node ∧ g'.node? r' = some node' := by
  induction hr with
  | copy hr =>
      obtain ⟨node, node', hnode, hnode', -⟩ := h.node hr
      exact ⟨node, node', hnode, hnode'⟩
  | wrapper hnode _ _ _ _ ih =>
      obtain ⟨node, -, hr, -⟩ := ih
      exact ⟨node, _, hr, hnode⟩

/-- Rules with one identity stand for rules with one identity. -/
theorem id_eq (hr : StandsFor g' copy n r r') (hq : StandsFor g' copy m q q')
    (hid : (g'.info r').id = (g'.info q').id) : (g.info r).id = (g.info q).id := by
  -- a wrapper has its identity for itself
  have hwrapper : ∀ {n m r r' q q'}, StandsFor g' copy (n + 1) r r' → StandsFor g' copy m q q' →
      (g'.info r').id = (g'.info q').id → (g.info r).id = (g.info q).id := by
    intro n m r r' q q' hr hq hid
    obtain ⟨_, node, -, hnode⟩ := h.exists_node hq
    cases hr with
    | wrapper hnode' hnew hown hform hr =>
        rw [info_eq hnode', info_eq hnode] at hid
        cases hown _ _ hnode hid.symm
        rw [(h.standsFor_unique (.wrapper hnode' hnew hown hform hr) hq).2]
  cases n with
  | succ n => exact hwrapper hr hq hid
  | zero =>
      cases m with
      | succ m => exact (hwrapper hq hr hid.symm).symm
      | zero =>
          cases hr with
          | copy hr =>
              cases hq with
              | copy hq => exact (h.id hr hq).2 hid

/-- What has been entered again has been entered before, even if wrappers are on the way. -/
theorem held (hpath : Follows g g' copy path path') (hr : StandsFor g' copy n r r')
    (houter : Around g' copy n r c outer) (hheld : ((g'.info r').id, c) ∈ outer ++ path') :
    ((g.info r).id, c) ∈ path := by
  rcases List.mem_append.1 hheld with hmem | hmem
  · -- no wrapper further outside has the identity of this one
    obtain ⟨m, w, hlt, hw, heq⟩ := houter _ hmem
    obtain ⟨_, node', -, hnode'⟩ := h.exists_node hr
    have hsame : r' = w := by
      cases hw with
      | copy => exact absurd hlt (Nat.not_lt_zero n)
      | wrapper hnode _ hown _ _ =>
          rw [info_eq hnode', info_eq hnode] at heq
          exact hown _ _ hnode' (Prod.mk.inj heq).1
    subst hsame
    exact absurd (h.standsFor_unique hr hw).1 (Nat.ne_of_lt hlt)
  · exact hpath.stands hr hmem

/-- Entering a rule and its copy, perhaps through wrappers, keeps trails together. -/
theorem follows_enter (hpath : Follows g g' copy path path') (hr : copy r r')
    (houter : Around g' copy 0 r c outer) :
    Follows g g' copy (((g.info r).id, c) :: path)
      (((g'.info r').id, c) :: (outer ++ path')) where
  stands := by
    intro n q q' c' hq hmem
    -- what has just been entered stands for the rule
    have hnow : ∀ {m w}, StandsFor g' copy m r w → ((g'.info q').id, c') = ((g'.info w).id, c) →
        ((g.info q).id, c') ∈ ((g.info r).id, c) :: path := by
      intro m w hw heq
      obtain ⟨hid, rfl⟩ := Prod.mk.inj heq
      rw [h.id_eq hq hw hid]
      exact List.mem_cons_self ..
    rcases List.mem_cons.1 hmem with heq | hmem
    · exact hnow (.copy hr) heq
    · rcases List.mem_append.1 hmem with hmem | hmem
      · obtain ⟨m, w, -, hw, heq⟩ := houter _ hmem
        exact hnow hw heq
      · exact List.mem_cons_of_mem _ (hpath.stands hq hmem)
  copies := by
    intro q q' c' hq hmem
    rcases List.mem_cons.1 hmem with heq | hmem
    · obtain ⟨hid, rfl⟩ := Prod.mk.inj heq
      rw [(h.id hq hr).1 hid]
      exact List.mem_cons_self ..
    · exact List.mem_cons_of_mem _ (List.mem_append_right _ (hpath.copies hq hmem))

end Grammar.Wrapped

/-! ### The same outcomes -/

/-- The same outcomes in the same order, with blames that are alike. -/
abbrev Outcome.AllLike (R : RuleInfo → RuleInfo → Prop) (os os' : List (Outcome τ α)) : Prop :=
  List.Forall₂ (Outcome.Like R) os os'

section Alike

variable {R : RuleInfo → RuleInfo → Prop} {instead : Rule → Rule → Prop}
  {use use' : Rule → Place → List (Outcome τ α)} {attempt attempt' : Place → List (Outcome τ α)}

namespace Outcome.AllLike

theorem refl (hR : ∀ info, R info info) (os : List (Outcome τ α)) : AllLike R os os :=
  List.forall₂_same.2 fun o _ => Outcome.like_refl hR o

theorem circle (h : R info info') (place : Place) :
    AllLike R [(Outcome.circle place info : Outcome τ α)] [.circle place info'] :=
  .cons (Outcome.like_circle h place) .nil

theorem flatMap {os os' : List (Outcome τ α)} {f f' : Outcome τ α → List (Outcome τ α)}
    (hos : AllLike R os os') (hf : ∀ o ∈ os, ∀ o', o.Like R o' → AllLike R (f o) (f' o')) :
    AllLike R (os.flatMap f) (os'.flatMap f') := by
  induction hos with
  | nil => exact .nil
  | cons ho _ ih =>
      simp only [List.flatMap_cons]
      exact List.rel_append (hf _ (List.mem_cons_self ..) _ ho)
        (ih fun o hmem => hf o (List.mem_cons_of_mem _ hmem))

/-- What goes on from the same outcomes is the same if it is at the places ahead. -/
theorem followedBy {src : Source τ} {os os' : List (Outcome τ α)}
    {next next' : α → Place → List (Outcome τ α)} (hos : AllLike R os os')
    (hfits : ∀ o ∈ os, o.Fits src place)
    (hnext : ∀ v p, src.Leads place p → AllLike R (next v p) (next' v p)) :
    AllLike R (os.flatMap (Outcome.followedBy next)) (os'.flatMap (Outcome.followedBy next')) := by
  refine hos.flatMap fun o ho o' hlike => ?_
  cases hlike with
  | ok p v => exact hnext v p (hfits _ ho).way
  | error p herror =>
      obtain ⟨c, hreason⟩ := herror
      exact .cons (.error _ (.mk c hreason)) .nil

variable {src : Source τ} (hfits : ∀ r p, ∀ o ∈ use r p, o.Fits src p)
  (huse : ∀ q q' p, instead q q' → src.Leads place p → AllLike R (use q p) (use' q' p))

include huse

theorem alternatives {rules rules' : List Rule} (hrules : List.Forall₂ instead rules rules') :
    AllLike R (rules.flatMap (use · place)) (rules'.flatMap (use' · place)) := by
  induction hrules with
  | nil => exact .nil
  | cons hr _ ih => exact List.rel_append (huse _ _ place hr .refl) ih

include hfits

theorem sequenceOutcomes (hR : ∀ info, R info info) (build : List α → Except Fault α)
    {rules rules' : List Rule} (hrules : List.Forall₂ instead rules rules') (values : List α)
    (way : src.Leads place p) :
    AllLike R (LazyGrammar.sequenceOutcomes use build rules values p)
      (LazyGrammar.sequenceOutcomes use' build rules' values p) := by
  induction hrules generalizing values p with
  | nil => exact refl hR _
  | cons hrule _ ih =>
      exact followedBy (huse _ _ p hrule way) (hfits _ p) fun v p way' => ih _ (way.trans way')

theorem runsWithin (hitem : instead q q') (hinfo : R info info') (collect : List α → α)
    (n : Nat) (values : List α) (way : src.Leads place p) :
    AllLike R (LazyGrammar.runsWithin (use q) info collect n values p)
      (LazyGrammar.runsWithin (use' q') info' collect n values p) := by
  induction n generalizing values p with
  | zero => exact .nil
  | succ n ih =>
      refine followedBy (huse _ _ p hitem way) (hfits _ p) fun v p way' => ?_
      split
      · exact circle hinfo p
      · exact .cons (.ok p _) (ih _ (way.trans way'))

end Outcome.AllLike

/-- Forms with rules in each other's place have outcomes that are alike if those rules do. -/
theorem Form.Rewrites.allLike (h : form.Rewrites instead g g' form')
    (hfits : ∀ r p, ∀ o ∈ use r p, o.Fits (Source.ofList tokens) p)
    (huse : ∀ q q' p, instead q q' → (Source.ofList tokens).Leads place p →
      Outcome.AllLike R (use q p) (use' q' p)) (hR : ∀ info, R info info)
    (hinfo : R info info') :
    Outcome.AllLike R (form.outcomes g tokens info use place)
      (form'.outcomes g' tokens info' use' place) := by
  cases h with
  | terminal | epsilon | endOfInput => exact .refl hR _
  | map f hinner =>
      exact (huse _ _ place hinner .refl).followedBy (hfits _ place) fun v p _ => .refl hR _
  | repetition collect hitem => exact .runsWithin hfits huse hitem hinfo collect _ [] .refl
  | reference weak htarget htarget' hr =>
      simp only [Form.outcomes, htarget, htarget']
      exact huse _ _ place hr .refl
  | oneOf hfirst hothers => exact .alternatives huse (.cons hfirst hothers)
  | sequence build hfirst hothers =>
      exact .sequenceOutcomes hfits huse hR build (.cons hfirst hothers) [] .refl

end Alike

/-- A wrapper has the outcomes of what it wraps. -/
theorem Form.Wraps.outcomes_eq {use : Rule → Place → List (Outcome τ α)} (h : form.Wraps g r)
    (hfits : ∀ r p, ∀ o ∈ use r p, o.Fits (Source.ofList tokens) p) (info : RuleInfo)
    (place : Place) : form.outcomes g tokens info use place = use r place := by
  -- a value is handed on as it is, and a failure that fits is made again as it was
  have hself : ∀ {next : α → Place → List (Outcome τ α)},
      (∀ v p, next v p = [.success p v]) →
      (use r place).flatMap (Outcome.followedBy next) = use r place := by
    intro next hnext
    refine (List.flatMap_congr fun o ho => ?_).trans (List.flatMap_singleton' _)
    cases hresult : o.result with
    | ok v =>
        rw [Outcome.followedBy_ok next hresult, hnext, Outcome.success, ← hresult]
    | error e =>
        rw [Outcome.followedBy_error next hresult, ← (hfits r place o ho).eq_failure hresult]
  cases h with
  | reference htarget => simp only [Form.outcomes, htarget]
  | map hf => exact hself fun v p => by rw [hf, Outcome.ofValue]
  | oneOf => simp [Form.outcomes]
  | sequence hbuild =>
      exact hself fun v p => by
        rw [sequenceOutcomes, List.nil_append, hbuild, Outcome.ofValue]

namespace Grammar

/-- **What stands for a rule has the same outcomes**, on trails that have kept together. Some
wrappers around it may have been entered at this position, which are not on the trail yet. -/
theorem Wrapped.outcomes_same (h : g.Wrapped copy g') (tokens : List τ)
    (hr : StandsFor g' copy n r r') (place : Place) (hpath : Follows g g' copy path path')
    (houter : Around g' copy n r place.consumed outer) :
    SameButBlame (g.outcomes tokens r place path)
      (g'.outcomes tokens r' place (outer ++ path')) := by
  induction hheight : g.height tokens place path using Nat.strongRecOn
    generalizing n r r' place path path' outer with
  | ind height ih =>
      subst hheight
      -- the wrappers go one by one, with the same rule inside
      induction hr generalizing outer with
      | @copy r r' hr =>
          obtain ⟨node, node', hnode, hnode', hform⟩ := h.node hr
          have hheld := h.held hpath (.copy hr) houter
          have hpath' := h.follows_enter hpath hr houter
          have hcopies := hpath.copies hr (c := place.consumed)
          rw [info_eq hnode, info_eq hnode'] at hheld hpath' hcopies
          by_cases hhold : (node.info.id, place.consumed) ∈ path
          · have hhold' := List.mem_append_right outer (hcopies hhold)
            rw [outcomes_held hnode (decide_eq_true hhold),
              outcomes_held hnode' (decide_eq_true hhold')]
            exact Outcome.AllLike.circle trivial place
          · have hfresh : Trail.holds path node.info.id place.consumed = false :=
              decide_eq_false hhold
            rw [outcomes_fresh hnode hfresh,
              outcomes_fresh hnode' (decide_eq_false (mt hheld hhold))]
            refine hform.allLike (fun q p => g.outcomes_fits q p _) (fun q q' p hq way => ?_)
              (fun _ => trivial) trivial
            obtain ⟨n, hq⟩ := hq
            exact ih _ (height_lt hnode hfresh way) hq p hpath' (.nil g' copy n q _) rfl
      | @wrapper n r inner w node hnode hnew hown hform hinner ihinner =>
          have hw : StandsFor g' copy (n + 1) r w := .wrapper hnode hnew hown hform hinner
          obtain ⟨node₀, -, hnode₀, -⟩ := h.exists_node hinner
          have hheld := h.held hpath hw houter
          rw [info_eq hnode, info_eq hnode₀] at hheld
          by_cases hhold : (node.info.id, place.consumed) ∈ outer ++ path'
          · rw [outcomes_held hnode₀ (decide_eq_true (hheld hhold)),
              outcomes_held hnode (decide_eq_true hhold)]
            exact Outcome.AllLike.circle trivial place
          · rw [outcomes_fresh hnode (decide_eq_false hhold),
              hform.outcomes_eq (fun q p => g'.outcomes_fits q p _), Trail.enter_path,
              ← List.cons_append]
            exact ihinner (info_eq hnode ▸ houter.enter hw)

end Grammar

/-! ### What is below -/

theorem exists_of_forall₂ {A B : Type} {R : A → B → Prop} {l : List A} {l' : List B}
    (h : List.Forall₂ R l l') {b : B} (hb : b ∈ l') : ∃ a ∈ l, R a b := by
  induction h with
  | nil => cases hb
  | cons hab _ ih =>
      rcases List.mem_cons.1 hb with rfl | hb
      · exact ⟨_, List.mem_cons_self .., hab⟩
      · obtain ⟨a, ha, hab⟩ := ih hb
        exact ⟨a, List.mem_cons_of_mem _ ha, hab⟩

namespace Form.Rewrites

variable {instead : Rule → Rule → Prop}

theorem parts (h : form.Rewrites instead g g' form') :
    List.Forall₂ instead form.parts form'.parts := by
  cases h with
  | terminal | epsilon | endOfInput | reference => exact .nil
  | map f h => exact .cons h .nil
  | repetition collect h => exact .cons h .nil
  | oneOf h hothers => exact .cons h hothers
  | sequence build h hothers => exact .cons h hothers

theorem total (h : form.Rewrites instead g g' form') (htotal : form.Total) : form'.Total := by
  cases h with
  | terminal | epsilon | endOfInput | reference | repetition | oneOf => trivial
  | map f h => exact htotal
  | sequence build h hothers =>
      intro vs hvs
      exact htotal vs (hothers.length_eq ▸ hvs)

end Form.Rewrites

theorem Form.Wraps.total (h : form.Wraps g r) : form.Total := by
  cases h with
  | reference | oneOf => trivial
  | map hf => exact fun v => ⟨v, hf v⟩
  | sequence hbuild =>
      intro vs hvs
      obtain ⟨v, rfl⟩ := List.length_eq_one_iff.1 hvs
      exact ⟨v, hbuild v⟩

theorem StandsFor.exists_copy (hr : StandsFor g' copy n r r') : ∃ r', copy r r' := by
  induction hr with
  | copy hr => exact ⟨_, hr⟩
  | wrapper _ _ _ _ _ ih => exact ih

namespace Grammar.Wrapped

variable (h : g.Wrapped copy g')

include h

/-- What a rule uses that has a copy has a copy. -/
theorem exists_copy_of_uses (hr : copy r r') (hu : g.Uses r q) : ∃ q', copy q q' := by
  obtain ⟨⟨info, form⟩, ⟨info', form'⟩, hnode, -, hform⟩ := h.node hr
  cases hu with
  | part hnode' hpart =>
      cases hnode.symm.trans hnode'
      obtain ⟨q', -, n, hq⟩ := exists_of_forall₂ hform.parts.flip hpart
      exact hq.exists_copy
  | target hnode' htarget =>
      cases hnode.symm.trans hnode'
      cases hform with
      | reference _ htarget' _ hq =>
          cases htarget.symm.trans htarget'
          obtain ⟨n, hq⟩ := hq
          exact hq.exists_copy

/-- What is used by a rule that stands for another one stands for that one too, or for what it
uses. -/
theorem of_uses (hr : StandsFor g' copy n r r') (hu : g'.Uses r' q') :
    ∃ m q, (q = r ∨ g.Uses r q) ∧ StandsFor g' copy m q q' := by
  cases hr with
  | copy hr =>
      obtain ⟨⟨info, form⟩, ⟨info', form'⟩, hnode, hnode', hform⟩ := h.node hr
      cases hu with
      | part hnode'' hpart =>
          cases hnode'.symm.trans hnode''
          obtain ⟨q, hmem, m, hq⟩ := exists_of_forall₂ hform.parts hpart
          exact ⟨m, q, Or.inr (.part hnode hmem), hq⟩
      | target hnode'' htarget =>
          cases hnode'.symm.trans hnode''
          cases hform with
          | reference _ htarget₀ htarget' hq =>
              cases htarget.symm.trans htarget'
              obtain ⟨m, hq⟩ := hq
              exact ⟨m, _, Or.inr (.target hnode htarget₀), hq⟩
  | @wrapper n _ inner _ node hnode _ _ hform hr =>
      refine ⟨n, r, Or.inl rfl, ?_⟩
      obtain ⟨info, form⟩ := node
      -- a wrapper uses nothing but what it wraps
      cases hu with
      | part hnode' hpart =>
          cases hnode.symm.trans hnode'
          cases hform with
          | reference => cases hpart
          | map | oneOf | sequence =>
              cases List.mem_singleton.1 hpart
              exact hr
      | target hnode' htarget =>
          cases hnode.symm.trans hnode'
          cases hform with
          | reference htarget' =>
              cases htarget.symm.trans htarget'
              exact hr

theorem of_reaches (hr : StandsFor g' copy n r r') (hreach : g'.Reaches r' q') :
    ∃ m q, g.Reaches r q ∧ StandsFor g' copy m q q' := by
  induction hreach with
  | refl => exact ⟨n, r, .refl, hr⟩
  | tail _ hu ih =>
      obtain ⟨m, q, hreach, hq⟩ := ih
      obtain ⟨k, q', hq', hstands⟩ := h.of_uses hq hu
      rcases hq' with rfl | huses
      · exact ⟨k, q', hreach, hstands⟩
      · exact ⟨k, q', hreach.tail huses, hstands⟩

theorem complete (hr : StandsFor g' copy n r r') : g.Complete r := by
  intro q hreach
  have hcopy : ∃ q', copy q q' := by
    induction hreach with
    | refl => exact hr.exists_copy
    | tail _ hu ih =>
        obtain ⟨q', hq⟩ := ih
        exact h.exists_copy_of_uses hq hu
  obtain ⟨q', hq⟩ := hcopy
  obtain ⟨⟨info, form⟩, ⟨info', form'⟩, hnode, -, hform⟩ := h.node hq
  refine ⟨info, form, hnode, fun cell weak heq => ?_⟩
  cases hform with
  | reference _ htarget =>
      cases heq
      exact ⟨_, htarget⟩
  | _ => cases heq

theorem complete' (hr : StandsFor g' copy n r r') : g'.Complete r' := by
  intro q' hreach
  obtain ⟨m, q, -, hq⟩ := h.of_reaches hr hreach
  cases hq with
  | copy hq =>
      obtain ⟨⟨info, form⟩, ⟨info', form'⟩, -, hnode', hform⟩ := h.node hq
      refine ⟨info', form', hnode', fun cell weak heq => ?_⟩
      cases hform with
      | reference _ _ htarget' =>
          cases heq
          exact ⟨_, htarget'⟩
      | _ => cases heq
  | @wrapper _ _ _ _ node hnode _ _ hform _ =>
      obtain ⟨info', form'⟩ := node
      refine ⟨info', form', hnode, fun cell weak heq => ?_⟩
      cases hform with
      | reference htarget =>
          cases heq
          exact ⟨_, htarget⟩
      | _ => cases heq

/-- Where no function gives up, none does so in wrappers either. -/
theorem total (hr : StandsFor g' copy n r r') (htotal : g.Total r) : g'.Total r' := by
  intro q' node hreach hnode
  obtain ⟨m, q, hreach', hq⟩ := h.of_reaches hr hreach
  cases hq with
  | copy hq =>
      obtain ⟨node₀, node', hnode₀, hnode', hform⟩ := h.node hq
      cases hnode.symm.trans hnode'
      exact hform.total (htotal q node₀ hreach' hnode₀)
  | wrapper hnode' _ _ hform _ =>
      cases hnode.symm.trans hnode'
      exact hform.total

end Grammar.Wrapped

/-! ### Wrapped grammars -/

/-- **Wrappers are transparent in every context.** A rule and one that stands for it give the
same outcomes in the same order, at the same places and with the same values, reasons, tokens
found and tokens left; the rules that are blamed may differ. Both may be called anywhere, after
the same way through the two grammars, and their lazy rules may still have to be made. -/
theorem wrappers_are_transparent {crumbs crumbs' : Crumbs} (h : g.Wrapped copy g')
    (hr : StandsFor g' copy n r r') (htotal : g.Total r) (hstage : g₀.Stage g)
    (hhas : g₀.Has r) (hstage' : g₀'.Stage g') (hhas' : g₀'.Has r') (tokens : List τ)
    (place : Place) (hcrumbs : crumbs.Ascending place.consumed)
    (hcrumbs' : crumbs'.Ascending place.consumed)
    (hpath : Follows g g' copy crumbs.entries crumbs'.entries) (demand demand' : Nat)
    (trace trace' : Trace) :
    ∃ found t found' t',
      Settles g (Source.ofList tokens) collect found t g₀ ⟨#[], none⟩
        ⟨.call r place crumbs, [], demand, trace⟩ ∧
      Settles g' (Source.ofList tokens) collect found' t' g₀' ⟨#[], none⟩
        ⟨.call r' place crumbs', [], demand', trace'⟩ ∧
      SameButBlame (found.toList.map (·.outcome)) (found'.toList.map (·.outcome)) ∧
      found.toList.map (·.outcome.remaining tokens)
        = found'.toList.map (·.outcome.remaining tokens) := by
  obtain ⟨found, t, hsettles, hfound⟩ := settles_outcomes tokens hstage hhas
    (h.complete hr) htotal place crumbs demand trace
  obtain ⟨found', t', hsettles', hfound'⟩ := settles_outcomes tokens hstage' hhas'
    (h.complete' hr) (h.total hr htotal) place crumbs' demand' trace'
  have hsame : SameButBlame (found.toList.map (·.outcome)) (found'.toList.map (·.outcome)) := by
    rw [hfound, hfound', Grammar.outcomes_entries r place hcrumbs,
      Grammar.outcomes_entries r' place hcrumbs']
    exact h.outcomes_same tokens hr place hpath (.nil g' copy n r _)
  refine ⟨found, t, found', t', hsettles, hsettles', hsame, ?_⟩
  have hremaining := remaining_eq_of_like hsame tokens
  rw [List.map_map, List.map_map] at hremaining
  exact hremaining

/-- The rule that starts again at once with a wrapper of each kind: its self reference is made
when it is needed first, the alternatives are wrapped one by one, so is their choice, and so is
the rule itself. -/
def Grammar.wrappedStuttering (made : Cell Unit) : Grammar Char Nat Unit where
  nodes := #[
    ⟨⟨0, .recursive, none⟩, .reference 0 true⟩,
    ⟨⟨1, .epsilon, none⟩, .epsilon 0⟩,
    ⟨⟨2, .lazy, none⟩, .reference 1 false⟩,
    ⟨⟨3, .sequence, none⟩, .sequence ⟨1⟩ [⟨2⟩] fun vs => .ok vs.sum⟩,
    ⟨⟨4, .just, none⟩, .terminal fun c => .ok (if c = 'x' then some 1 else none)⟩,
    ⟨⟨5, .map, none⟩, .map ⟨4⟩ .ok⟩,
    ⟨⟨6, .oneOf, none⟩, .oneOf ⟨3⟩ [⟨5⟩]⟩,
    ⟨⟨7, .oneOf, none⟩, .oneOf ⟨6⟩ []⟩,
    ⟨⟨0, .recursive, none⟩, .reference 0 false⟩,
    ⟨⟨8, .sequence, none⟩, .sequence ⟨8⟩ [] fun vs => .ok vs.sum⟩]
  cells := #[.recursive ⟨7⟩, made]
  nextId := 9

namespace Grammar

/-- The rules of `stuttering`, each with its copy in `wrappedStuttering`. -/
def stutteringCopies : List (Nat × Nat) := [(0, 0), (1, 1), (2, 3), (3, 4), (4, 6), (5, 8)]

def stutteringCopy (r r' : Rule) : Prop := (r.node, r'.node) ∈ stutteringCopies

theorem wrappedStuttering_standsFor {n : Nat} {r inner w : Rule} {node : Node Char Nat}
    (hnode : (wrappedStuttering (.supplied ⟨0⟩)).node? w = some node)
    (hw : w.node ∉ stutteringCopies.map Prod.snd)
    (hown : ∀ i < 10, [0, 1, 2, 3, 4, 5, 6, 7, 0, 8][i]? = some node.info.id → i = w.node)
    (hform : node.form.Wraps (wrappedStuttering (.supplied ⟨0⟩)) inner)
    (h : StandsFor (wrappedStuttering (.supplied ⟨0⟩)) stutteringCopy n r inner) :
    StandsFor (wrappedStuttering (.supplied ⟨0⟩)) stutteringCopy (n + 1) r w := by
  refine .wrapper hnode (fun q hq => hw ?_) (fun q node' hnode' heq => ?_) hform h
  · exact List.mem_map_of_mem hq (f := Prod.snd)
  have hlt : q.node < 10 := (Array.getElem?_eq_some_iff.1 hnode').1
  have hids : ((wrappedStuttering (.supplied ⟨0⟩)).nodes.toList.map (·.info.id))[q.node]?
      = some node'.info.id := by
    rw [List.getElem?_map, Array.getElem?_toList]
    exact congrArg (Option.map (·.info.id)) hnode'
  obtain ⟨i⟩ := q
  obtain rfl := hown i hlt (heq ▸ hids)
  rfl

theorem stuttering_wrapped :
    stuttering.Wrapped stutteringCopy (wrappedStuttering (.supplied ⟨0⟩)) := by
  have hcopy : ∀ {i j : Nat}, (i, j) ∈ stutteringCopies →
      StandsFor (wrappedStuttering (.supplied ⟨0⟩)) stutteringCopy 0 ⟨i⟩ ⟨j⟩ := fun h => .copy h
  have hself : StandsFor (wrappedStuttering (.supplied ⟨0⟩)) stutteringCopy 1 ⟨0⟩ ⟨2⟩ :=
    wrappedStuttering_standsFor rfl (by decide) (by decide) (.reference rfl) (hcopy (by decide))
  have hletter : StandsFor (wrappedStuttering (.supplied ⟨0⟩)) stutteringCopy 1 ⟨3⟩ ⟨5⟩ :=
    wrappedStuttering_standsFor rfl (by decide) (by decide) (.map fun _ => rfl) (hcopy (by decide))
  have hchoice : StandsFor (wrappedStuttering (.supplied ⟨0⟩)) stutteringCopy 1 ⟨4⟩ ⟨7⟩ :=
    wrappedStuttering_standsFor rfl (by decide) (by decide) .oneOf (hcopy (by decide))
  have hturn := hcopy (i := 2) (j := 3) (by decide)
  refine ⟨?_, ?_, ?_⟩
  · rintro ⟨i⟩ ⟨j⟩ hij
    simp only [stutteringCopy, stutteringCopies, List.mem_cons, Prod.mk.injEq, List.not_mem_nil,
      or_false] at hij
    rcases hij with ⟨rfl, rfl⟩ | ⟨rfl, rfl⟩ | ⟨rfl, rfl⟩ | ⟨rfl, rfl⟩ | ⟨rfl, rfl⟩ | ⟨rfl, rfl⟩
    · exact ⟨_, _, rfl, rfl, .reference true rfl rfl ⟨1, hchoice⟩⟩
    · exact ⟨_, _, rfl, rfl, .epsilon 0⟩
    · exact ⟨_, _, rfl, rfl, .sequence _ ⟨0, hcopy (by decide)⟩ (.cons ⟨1, hself⟩ .nil)⟩
    · exact ⟨_, _, rfl, rfl, .terminal _⟩
    · exact ⟨_, _, rfl, rfl, .oneOf ⟨0, hturn⟩ (.cons ⟨1, hletter⟩ .nil)⟩
    · exact ⟨_, _, rfl, rfl, .reference false rfl rfl ⟨1, hchoice⟩⟩
  · intro r r' q q' hr hq
    have hids : ∀ p ∈ stutteringCopies, ∀ p' ∈ stutteringCopies,
        ((stuttering.info ⟨p.1⟩).id = (stuttering.info ⟨p'.1⟩).id ↔
          ((wrappedStuttering (.supplied ⟨0⟩)).info ⟨p.2⟩).id
            = ((wrappedStuttering (.supplied ⟨0⟩)).info ⟨p'.2⟩).id) := by decide
    exact hids _ hr _ hq
  · intro r q r' hr hq
    have hfirst : ∀ p ∈ stutteringCopies, ∀ p' ∈ stutteringCopies, p.2 = p'.2 → p.1 = p'.1 := by
      decide
    exact congrArg Rule.mk (hfirst _ hr _ hq rfl)

/-- Before the self reference has been needed. -/
theorem wrappedStuttering_stage :
    (wrappedStuttering (.deferred ())).Stage (wrappedStuttering (.supplied ⟨0⟩)) := by
  refine ⟨closed_of_all rfl rfl, fun r node hnode => hnode, ?_, Nat.le_refl _⟩
  intro cell content hcontent
  match cell with
  | 0 => exact Or.inr (Or.inl hcontent)
  | 1 =>
      cases hcontent
      exact Or.inl ⟨(), rfl⟩
  | n + 2 => cases hcontent

end Grammar

/-- The choice starts again at once, after both rules have been entered one token earlier. -/
theorem stuttering_wrappers_are_transparent :
    Grammar.stuttering.Wrapped Grammar.stutteringCopy
      (Grammar.wrappedStuttering (.supplied ⟨0⟩)) ∧
    StandsFor (Grammar.wrappedStuttering (.supplied ⟨0⟩)) Grammar.stutteringCopy 1 ⟨4⟩ ⟨7⟩ ∧
    Grammar.stuttering.Total ⟨4⟩ ∧ Grammar.stuttering.Stage Grammar.stuttering ∧
    Grammar.stuttering.Has ⟨4⟩ ∧
    (Grammar.wrappedStuttering (.deferred ())).Stage (Grammar.wrappedStuttering (.supplied ⟨0⟩)) ∧
    (Grammar.wrappedStuttering (.deferred ())).Has ⟨7⟩ ∧
    (Crumbs.root.enter 0 0).Ascending 1 ∧ ((Crumbs.root.enter 8 0).enter 0 0).Ascending 1 ∧
    Follows Grammar.stuttering (Grammar.wrappedStuttering (.supplied ⟨0⟩))
      Grammar.stutteringCopy [(0, 0)] [(0, 0), (8, 0)] ∧
    ∃ (found : Array (Sighting Char Nat)) (t : State Char Nat)
      (found' : Array (Sighting Char Nat)) (t' : State Char Nat),
      Settles Grammar.stuttering (Source.ofList ['x']) collect found t Grammar.stuttering
        ⟨#[], none⟩ ⟨.call ⟨4⟩ ⟨1, 0⟩ (Crumbs.root.enter 0 0), [], 1, .silent⟩ ∧
      Settles (Grammar.wrappedStuttering (.supplied ⟨0⟩)) (Source.ofList ['x']) collect found' t'
        (Grammar.wrappedStuttering (.deferred ())) ⟨#[], none⟩
        ⟨.call ⟨7⟩ ⟨1, 0⟩ ((Crumbs.root.enter 8 0).enter 0 0), [], 1, .silent⟩ ∧
      SameButBlame (found.toList.map (·.outcome)) (found'.toList.map (·.outcome)) ∧
      found.toList.map (·.outcome.remaining ['x'])
        = found'.toList.map (·.outcome.remaining ['x']) := by
  have hwrapped := Grammar.stuttering_wrapped
  have hchoice : StandsFor (Grammar.wrappedStuttering (.supplied ⟨0⟩)) Grammar.stutteringCopy 1
      ⟨4⟩ ⟨7⟩ :=
    Grammar.wrappedStuttering_standsFor rfl (by decide) (by decide) .oneOf
      (.copy (by decide : (4, 6) ∈ Grammar.stutteringCopies))
  have hroot : Grammar.stutteringCopy ⟨5⟩ ⟨8⟩ := (by decide : (5, 8) ∈ Grammar.stutteringCopies)
  have houtermost : StandsFor (Grammar.wrappedStuttering (.supplied ⟨0⟩)) Grammar.stutteringCopy 1
      ⟨5⟩ ⟨9⟩ :=
    Grammar.wrappedStuttering_standsFor rfl (by decide) (by decide) (.sequence fun _ => rfl)
      (.copy hroot)
  have hpath := hwrapped.follows_enter (.nil _ _ _) hroot
    ((Around.nil _ _ 1 ⟨5⟩ 0).enter houtermost)
  have htotal : Grammar.stuttering.Total ⟨4⟩ :=
    Grammar.total_of_all (by simp [Grammar.stuttering, Grammar.again, Grammar.turn, Form.Total]) _
  have hstage : Grammar.stuttering.Stage Grammar.stuttering :=
    .refl (Grammar.closed_of_all rfl rfl)
  have hcrumbs : (Crumbs.root.enter 0 0).Ascending 1 :=
    ((Crumbs.Ascending.root 0).enter 0).mono (by decide)
  have hcrumbs' : ((Crumbs.root.enter 8 0).enter 0 0).Ascending 1 :=
    (((Crumbs.Ascending.root 0).enter 8).enter 0).mono (by decide)
  exact ⟨hwrapped, hchoice, htotal, hstage, ⟨_, rfl⟩, Grammar.wrappedStuttering_stage, ⟨_, rfl⟩,
    hcrumbs, hcrumbs', hpath,
    wrappers_are_transparent hwrapped hchoice htotal hstage ⟨_, rfl⟩
      Grammar.wrappedStuttering_stage ⟨_, rfl⟩ ['x'] ⟨1, 0⟩ hcrumbs hcrumbs' hpath 1 1 .silent
      .silent⟩

/-- The choice is blamed in the first grammar, the wrapper around it in the second one. -/
example :
    Grammar.stuttering.outcomes ['x'] ⟨4⟩ ⟨0, 0⟩ ([] : Path)
      = [.circle ⟨0, 0⟩ ⟨4, .oneOf, none⟩, .success ⟨1, 1⟩ 1] ∧
    (Grammar.wrappedStuttering (.supplied ⟨0⟩)).outcomes ['x'] ⟨7⟩ ⟨0, 0⟩ ([] : Path)
      = [.circle ⟨0, 0⟩ ⟨7, .oneOf, none⟩, .success ⟨1, 1⟩ 1] :=
  ⟨rfl, rfl⟩

end LazyGrammar

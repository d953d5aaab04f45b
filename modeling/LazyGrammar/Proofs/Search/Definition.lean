import LazyGrammar.Proofs.Rule.Definition
import LazyGrammar.Proofs.Rule.Meanwhile
import LazyGrammar.Proofs.Search.Trails
import LazyGrammar.Proofs.Search.Wrappers

/-!
# LazyGrammar.Proofs.Search.Definition

**A declared rule that has been defined is its definition.** A copy of it is entered, and then
the definition is called at the same place (`Grammar.ActsAs`). Wherever a copy is used, its
outcomes are those of the definition.

Design points:

* The definition may use the declared rule. Then one more rule is on the trail, and where a circle
  is noticed may be a copy in one search and the definition in the other. It is the same call in
  both all the same, so the two may only be blamed in each other's place (`BlamesAlike`).
* Two trails are compared at one position at a time (`Crumbs.Besides`), since nothing is on a
  trail with a position that is still ahead.
* A definition that is refused is gone, and with it the recursive rules that it alone kept. So a
  search may come to a self reference that leads nowhere any more, but in no other way does it
  notice (`Grammar.Drops`).
-/

namespace LazyGrammar

variable {τ α σ : Type}

/-- Rules of two identities may be blamed in each other's place. -/
def BlamesAlike (id id' : RuleId) (info info' : RuleInfo) : Prop :=
  info = info' ∨ info.id ∈ [id, id'] ∧ info'.id ∈ [id, id']

/-- All rules of an identity refer to one rule. -/
def Grammar.PassesTo (g : Grammar τ α σ) (id : RuleId) (d : Rule) : Prop :=
  ∀ q node, g.node? q = some node → node.info.id = id →
    ∃ cell weak, node.form = .reference cell weak ∧ g.target cell = .rule d

/-- Two trails with the same rules at a position, but perhaps for one. Where that one is on a
trail, the rule that it refers to has been entered as well, at the latest with rule `i`. -/
structure Crumbs.Besides (id inner i : RuleId) (c : Nat) (crumbs crumbs' : Crumbs) : Prop where
  others : ∀ j, j ≠ id → crumbs.holds j c = crumbs'.holds j c
  inside : crumbs.holds id c = true → (crumbs.enter i c).holds inner c = true
  inside' : crumbs'.holds id c = true → (crumbs'.enter i c).holds inner c = true

variable {g g' : Grammar τ α σ} {r d q : Rule} {node inside : Node τ α} {form : Form τ α}
  {id inner i : RuleId} {c c' : Nat} {crumbs crumbs' : Crumbs} {tokens : List τ} {place : Place}

theorem BlamesAlike.refl (id id' : RuleId) (info : RuleInfo) : BlamesAlike id id' info info :=
  Or.inl rfl

theorem BlamesAlike.of_ids {id id' : RuleId} {info info' : RuleInfo} (h : info.id ∈ [id, id'])
    (h' : info'.id ∈ [id, id']) : BlamesAlike id id' info info' := Or.inr ⟨h, h'⟩

/-! ### Trails beside each other -/

namespace Crumbs.Besides

/-- After any other rule, at the same position or further on. -/
theorem enter (h : crumbs.Besides id inner i c crumbs') (hi : i ≠ id) (j : RuleId)
    (hle : c ≤ c') : (crumbs.enter i c).Besides id inner j c' (crumbs'.enter i c) := by
  rcases Nat.eq_or_lt_of_le hle with rfl | hlt
  · have hsame : ∀ k : Crumbs, (k.enter i c).holds id c = k.holds id c := fun k => by
      rw [holds_enter, decide_eq_false hi.symm, Bool.false_or]
    refine ⟨fun k hk => ?_, fun hheld => ?_, fun hheld => ?_⟩
    · rw [holds_enter, holds_enter, h.others k hk]
    · rw [holds_enter, h.inside (hsame crumbs ▸ hheld), Bool.or_true]
    · rw [holds_enter, h.inside' (hsame crumbs' ▸ hheld), Bool.or_true]
  · have hahead : ∀ k : Crumbs, ∀ j, (k.enter i c).holds j c' = false := fun k j =>
      k.holds_enter_ahead i j hlt
    refine ⟨fun k _ => ?_, fun hheld => ?_, fun hheld => ?_⟩
    · rw [hahead, hahead]
    · rw [hahead] at hheld
      cases hheld
    · rw [hahead] at hheld
      cases hheld

/-- Once the rule has been entered on both trails, they have the same rules. -/
theorem holds_enter_eq (h : crumbs.Besides id inner i c crumbs') (j : RuleId) :
    (crumbs.enter id c).holds j c = (crumbs'.enter id c).holds j c := by
  rw [holds_enter, holds_enter]
  by_cases hj : j = id
  · rw [decide_eq_true hj]
    rfl
  · rw [h.others j hj]

/-- Then the rule that it refers to is called. -/
theorem pass (h : crumbs.Besides id inner i c crumbs') :
    (crumbs.enter id c).Besides id inner inner c (crumbs'.enter id c) :=
  ⟨fun j _ => h.holds_enter_eq j, fun _ => by rw [holds_enter, decide_eq_true rfl]; rfl,
    fun _ => by rw [holds_enter, decide_eq_true rfl]; rfl⟩

end Crumbs.Besides

/-! ### Outcomes of a reference -/

/-- A form names what it names. -/
theorem Form.rewrites_self {instead : Rule → Rule → Prop}
    (hparts : ∀ q ∈ form.parts, instead q q)
    (htarget : ∀ cell weak, form = .reference cell weak →
      ∃ q, g.target cell = .rule q ∧ instead q q) : form.Rewrites instead g g form := by
  cases form with
  | terminal accept => exact .terminal accept
  | epsilon value => exact .epsilon value
  | endOfInput value => exact .endOfInput value
  | map inner f => exact .map f (hparts inner (List.mem_singleton_self _))
  | repetition item collect => exact .repetition collect (hparts item (List.mem_singleton_self _))
  | reference cell weak =>
      obtain ⟨q, hq, hself⟩ := htarget cell weak rfl
      exact .reference weak hq hq hself
  | oneOf first others =>
      obtain ⟨hfirst, hothers⟩ := List.forall_mem_cons.1 hparts
      exact .oneOf hfirst (List.forall₂_same.2 hothers)
  | sequence first others build =>
      obtain ⟨hfirst, hothers⟩ := List.forall_mem_cons.1 hparts
      exact .sequence build hfirst (List.forall₂_same.2 hothers)

namespace Grammar

theorem Complete.rewrites_self (h : g.Complete q) (hnode : g.node? q = some node) :
    node.form.Rewrites (fun q q' => q = q' ∧ g.Complete q) g g node.form := by
  refine Form.rewrites_self (fun q' hq' => ⟨rfl, h.of_uses (.part hnode hq')⟩) ?_
  intro cell weak hform
  obtain ⟨info, form⟩ := node
  subst hform
  obtain ⟨q', htarget⟩ := h.target hnode
  exact ⟨q', htarget, rfl, h.of_uses (.target hnode htarget)⟩

namespace PassesTo

variable (hpass : g.PassesTo id d) (hnode : g.node? q = some node) (hid : node.info.id = id)

include hpass hnode hid

/-- A rule that refers to another one has been entered, so that one is next. -/
theorem outcomes_fresh (hfresh : crumbs.holds id place.consumed = false) :
    g.outcomes tokens q place crumbs
      = g.outcomes tokens d place (crumbs.enter id place.consumed) := by
  subst hid
  obtain ⟨cell, weak, hform, htarget⟩ := hpass q node hnode rfl
  rw [Grammar.outcomes_fresh hnode hfresh, hform, Form.outcomes, htarget]
  rfl

theorem complete (hcomplete : g.Complete q) : g.Complete d := by
  obtain ⟨info, form⟩ := node
  obtain ⟨cell, weak, hform, htarget⟩ := hpass q _ hnode hid
  subst hform
  exact hcomplete.of_uses (.target hnode htarget)

/-- If the rule behind has been entered, that is the one to be blamed. -/
theorem outcomes_inside (hd : g.node? d = some inside)
    (hfresh : crumbs.holds id place.consumed = false)
    (hinside : (crumbs.enter id place.consumed).holds inside.info.id place.consumed = true) :
    g.outcomes tokens q place crumbs = [.circle place inside.info] := by
  rw [hpass.outcomes_fresh hnode hid hfresh, outcomes_held hd hinside]

end PassesTo

/-- **Whether a reference has been entered makes no difference**, to any rule, as long as the rule
behind it has been entered as well: only one of the two may be blamed for the other. -/
theorem PassesTo.outcomes_alike (hpass : g.PassesTo id d) (hd : g.node? d = some inside)
    (tokens : List τ) (hnode : g.node? q = some node) (hcomplete : g.Complete q) (place : Place)
    (h : crumbs.Besides id inside.info.id node.info.id place.consumed crumbs') :
    Outcome.AllLike (BlamesAlike id inside.info.id) (g.outcomes tokens q place crumbs)
      (g.outcomes tokens q place crumbs') := by
  induction hheight : g.height tokens place crumbs using Nat.strongRecOn
    generalizing q node place crumbs crumbs' with
  | ind height ih =>
      subst hheight
      have hrefl := BlamesAlike.refl id inside.info.id
      have hmem : id ∈ [id, inside.info.id] := List.mem_cons_self ..
      have hmem' : inside.info.id ∈ [id, inside.info.id] :=
        List.mem_cons_of_mem _ (List.mem_singleton_self _)
      by_cases hid : node.info.id = id
      · -- a copy: it is refused, or the rule behind it is next
        subst hid
        cases hheld : crumbs.holds node.info.id place.consumed <;>
          cases hheld' : crumbs'.holds node.info.id place.consumed
        · rw [hpass.outcomes_fresh hnode rfl hheld, hpass.outcomes_fresh hnode rfl hheld']
          exact ih _ (height_lt hnode hheld .refl) hd (hpass.complete hnode rfl hcomplete) place
            h.pass rfl
        · rw [hpass.outcomes_inside hnode rfl hd hheld
            ((h.holds_enter_eq _).trans (h.inside' hheld')), outcomes_held hnode hheld']
          exact .circle (.of_ids hmem' hmem) place
        · rw [outcomes_held hnode hheld, hpass.outcomes_inside hnode rfl hd hheld'
            ((h.holds_enter_eq _).symm.trans (h.inside hheld))]
          exact .circle (.of_ids hmem hmem') place
        · rw [outcomes_held hnode hheld, outcomes_held hnode hheld']
          exact .refl hrefl _
      · have hsame := h.others node.info.id hid
        cases hheld : crumbs.holds node.info.id place.consumed with
        | true =>
            rw [outcomes_held hnode hheld, outcomes_held hnode (hsame.symm.trans hheld)]
            exact .refl hrefl _
        | false =>
            rw [Grammar.outcomes_fresh hnode hheld,
              Grammar.outcomes_fresh hnode (hsame.symm.trans hheld)]
            refine (hcomplete.rewrites_self hnode).allLike (fun q p => g.outcomes_fits q p _) ?_
              hrefl (hrefl _)
            rintro q' _ p ⟨rfl, hcomplete'⟩ way
            obtain ⟨info, form, hnode'⟩ := hcomplete'.node
            exact ih _ (height_lt hnode hheld way) hnode' hcomplete' p
              (h.enter hid _ way.consumed_le) rfl

/-- **A reference has the outcomes of the rule behind it.** -/
theorem PassesTo.outcomes_copy (hpass : g.PassesTo id d) (hd : g.node? d = some inside)
    (tokens : List τ) (hnode : g.node? r = some node) (hid : node.info.id = id)
    (hcomplete : g.Complete r) (place : Place)
    (hinside : crumbs.holds id place.consumed = true →
      crumbs.holds inside.info.id place.consumed = true) :
    Outcome.AllLike (BlamesAlike id inside.info.id) (g.outcomes tokens r place crumbs)
      (g.outcomes tokens d place crumbs) := by
  subst hid
  cases hheld : crumbs.holds node.info.id place.consumed with
  | true =>
      rw [outcomes_held hnode hheld, outcomes_held hd (hinside hheld)]
      exact .circle (.of_ids (List.mem_cons_self ..)
        (List.mem_cons_of_mem _ (List.mem_singleton_self _))) place
  | false =>
      rw [hpass.outcomes_fresh hnode rfl hheld]
      by_cases hsame : inside.info.id = node.info.id
      · -- the rule behind is a copy itself
        rw [hpass.outcomes_fresh hd hsame hheld]
        exact .refl (BlamesAlike.refl _ _) _
      · refine hpass.outcomes_alike hd tokens hd (hpass.complete hnode rfl hcomplete) place
          ⟨fun j hj => ?_, fun _ => ?_, fun hheld' => ?_⟩
        · rw [Crumbs.holds_enter, decide_eq_false hj, Bool.false_or]
        · rw [Crumbs.holds_enter, decide_eq_true rfl, Bool.true_or]
        · rw [hheld] at hheld'
          cases hheld'

/-! ### Defined rules -/

/-- A rule is another one. Where it is called for the first time, the other one is called at the
same place once the rule itself is on the trail. Wherever both are called with a trail on which
the rule does not stand alone, they have the same outcomes in the same order, with the same tokens
left, and only one of the two may be blamed for the other. Rules may still have to be made. -/
structure ActsAs (g : Grammar τ α σ) (r d : Rule) : Prop where
  call : ∀ (src : Source τ) (place : Place) (crumbs : Crumbs) (frames : List (Frame τ α))
    (demand : Nat) (trace : Trace), crumbs.holds (g.info r).id place.consumed = false →
    Machine.Steps g src ⟨.call r place crumbs, frames, demand, trace⟩
      ⟨.call d place (crumbs.enter (g.info r).id place.consumed), frames, demand,
        trace.record (.entered (g.info r) place.consumed crumbs.depth)⟩
  outcomes : ∀ (g' : Grammar τ α σ), g.Stage g' → g'.Consistent → g'.Complete r → g'.Total r →
    ∀ (tokens : List τ) (place : Place) (crumbs : Crumbs) (demand : Nat) (trace : Trace),
    (crumbs.holds (g.info r).id place.consumed = true →
      crumbs.holds (g.info d).id place.consumed = true) →
    ∃ found t found' t',
      Settles g' (Source.ofList tokens) collect found t g ⟨#[], none⟩
        ⟨.call r place crumbs, [], demand, trace⟩ ∧
      Settles g' (Source.ofList tokens) collect found' t' g ⟨#[], none⟩
        ⟨.call d place crumbs, [], demand, trace⟩ ∧
      Outcome.AllLike (BlamesAlike (g.info r).id (g.info d).id) (found.toList.map (·.outcome))
        (found'.toList.map (·.outcome)) ∧
      found.toList.map (·.outcome.remaining tokens)
        = found'.toList.map (·.outcome.remaining tokens)

/-- What refers to a rule through a cell that stays as it is, is that rule. -/
theorem actsAs_of_cell {info : RuleInfo} {cell : CellId} {weak : Bool} (hg : g.Consistent)
    (hnode : g.node? r = some ⟨info, .reference cell weak⟩)
    (hcell : g.cells[cell]? = some (.declared (some d))) : g.ActsAs r d := by
  have htarget : g.target cell = .rule d := by
    rw [target, hcell]
    rfl
  have hd : g.Has d := (hg.target htarget).has
  obtain ⟨inside, hinside⟩ := hd
  refine ⟨?_, ?_⟩
  · intro src place crumbs frames demand trace hfresh
    rw [info_eq hnode] at hfresh ⊢
    have hcall : Machine.step g src ⟨.call r place crumbs, frames, demand, trace⟩ =
        .next ⟨.follow cell place (crumbs.enter info.id place.consumed), frames, demand,
          trace.record (.entered info place.consumed crumbs.depth)⟩ := by
      simp only [Machine.step, Machine.call, hnode]
      rw [if_neg (Bool.not_eq_true _ ▸ hfresh)]
      rfl
    refine .tail (.single hcall) ?_
    simp only [Machine.step, Machine.follow, htarget]
    rfl
  · intro g' hstage hg' hcomplete htotal tokens place crumbs demand trace hheld
    rw [info_eq hnode, info_eq hinside] at hheld ⊢
    have hnode' := hstage.node _ _ hnode
    have hinside' := hstage.node _ _ hinside
    -- the same rule is behind the cell later on, as there is one
    obtain ⟨d', htarget'⟩ := hcomplete.target hnode'
    cases hstage.eq_of_target htarget' htarget
    have hpass : g'.PassesTo info.id d := by
      intro q node hq hid
      rcases hg'.agree hnode' hq hid.symm with hform | ⟨cell', weak', weak'', hform, hform'⟩
      · exact ⟨cell, weak, hform.symm, htarget'⟩
      · cases hform
        exact ⟨cell, weak'', hform', htarget'⟩
    have huses : g'.Uses r d := .target hnode' htarget'
    obtain ⟨found, t, hsettles, hfound⟩ := settles_outcomes tokens hstage ⟨_, hnode⟩ hcomplete
      htotal place crumbs demand trace
    obtain ⟨found', t', hsettles', hfound'⟩ := settles_outcomes tokens hstage ⟨_, hinside⟩
      (hcomplete.of_uses huses) (htotal.of_uses huses) place crumbs demand trace
    have hlike := hpass.outcomes_copy hinside' tokens hnode' rfl hcomplete place hheld
    rw [← hfound, ← hfound'] at hlike
    refine ⟨found, t, found', t', hsettles, hsettles', hlike, ?_⟩
    have hremaining := remaining_eq_of_like hlike tokens
    rw [List.map_map, List.map_map] at hremaining
    exact hremaining

/-! ### Refused definitions -/

open Classical in
/-- A rule is dropped, while others hold what is listed. Nothing is stored: rules and cells stay
as they are, but for recursive rules that nobody else keeps. Whoever uses a rule that somebody else
keeps finds what he found before, on whatever input and with whatever budget, as long as no self
reference below it is to a recursive rule that has been lost. -/
structure Drops (g : Grammar τ α σ) (held : List Rule) (dropped : Rule) (g' : Grammar τ α σ) :
    Prop where
  nodes : g'.nodes = g.nodes
  nextId : g'.nextId = g.nextId
  cells : ∀ cell, g'.cells[cell]? = if g.Loses held cell then some .released else g.cells[cell]?
  /-- If nothing was left over before, whatever is lost was kept by the rule alone. -/
  alone : g.release (dropped :: held) = g → ∀ cell, g.Loses held cell →
    ∃ q info, Relation.ReflTransGen g.Keeps dropped q ∧
      g.node? q = some ⟨info, .reference cell false⟩
  /-- Nothing is lost if somebody else keeps the rule. -/
  shared : g.release (dropped :: held) = g → g.KeepsRule held dropped → g' = g
  streams : ∀ q, g.KeepsRule held q →
    (∀ s info cell, g.Reaches q s → g.node? s = some ⟨info, .reference cell true⟩ →
      ¬ g.Loses held cell) →
    ∀ {κ ρ : Type} (src : Source τ) (reader : Reader τ α κ ρ) (steps outcomes : Nat) (memory : κ)
      (place : Place) (crumbs : Crumbs) (demand : Nat) (trace : Trace),
    explore g' src reader steps outcomes memory ⟨.call q place crumbs, [], demand, trace⟩
      = explore g src reader steps outcomes memory ⟨.call q place crumbs, [], demand, trace⟩
  /-- So does whoever goes on with a search below such a rule. -/
  underway : ∀ q, g.KeepsRule held q →
    (∀ s info cell, g.Reaches q s → g.node? s = some ⟨info, .reference cell true⟩ →
      ¬ g.Loses held cell) →
    ∀ {κ ρ : Type} (src : Source τ) (reader : Reader τ α κ ρ) (steps outcomes : Nat) (memory : κ)
      (place : Place) (s : State τ α), s.Within (Scope.below g q) src place →
    explore g' src reader steps outcomes memory s = explore g src reader steps outcomes memory s

theorem History.kinded {log : Log} (h : g.History log) : g.Kinded :=
  Evolves.kinded (built_iff_exists_history.2 ⟨log, h⟩) .empty

/-- What was kept by a rule or by others, and is not kept by the others, the rule keeps. -/
theorem exists_keeps_of_cons {held : List Rule} {dropped : Rule} {cell : CellId}
    (hkept : g.KeepsCell (dropped :: held) cell) (hlost : ¬ g.KeepsCell held cell) :
    ∃ q info, Relation.ReflTransGen g.Keeps dropped q ∧
      g.node? q = some ⟨info, .reference cell false⟩ := by
  obtain ⟨r₀, q, info, hr₀, hpath, hnode⟩ := hkept
  have hno : ¬ (r₀ ∈ held ∨ g.isStrongReference r₀ = true ∧ Relation.TransGen g.Keeps r₀ r₀) :=
    fun hothers => hlost ⟨r₀, q, info, hothers, hpath, hnode⟩
  rw [List.mem_cons, or_assoc] at hr₀
  obtain rfl := hr₀.resolve_right hno
  exact ⟨q, info, hpath, hnode⟩

/-- The same rules are below a rule that somebody keeps, with the same rules behind their
references, if none of these is lost. -/
theorem sameBelow_release {held : List Rule} (hg : g.Kinded) (hq : g.KeepsRule held q)
    (hlives : ∀ s info cell, g.Reaches q s → g.node? s = some ⟨info, .reference cell true⟩ →
      ¬ g.Loses held cell) : g.SameBelow q (g.release held) where
  node _ := by rw [node?, node?, release_nodes]
  target hs hnode := by
    have hcell := cells_release_of_not_loses (not_loses_of_reaches hg hq hlives hs hnode)
    rw [target, target, hcell]

/-- To release what nobody else keeps is to drop a rule. -/
theorem drops_release (hg : g.Kinded) (held : List Rule) (dropped : Rule) :
    g.Drops held dropped (g.release held) := by
  have halone : g.release (dropped :: held) = g → ∀ cell, g.Loses held cell →
      ∃ q info, Relation.ReflTransGen g.Keeps dropped q ∧
        g.node? q = some ⟨info, .reference cell false⟩ := by
    rintro hbefore cell ⟨hrecursive, hlost⟩
    refine exists_keeps_of_cons (Classical.not_not.1 fun hnot => ?_) hlost
    exact not_loses_of_release_eq hbefore cell ⟨hrecursive, hnot⟩
  refine ⟨release_nodes .., release_nextId .., fun cell => ?_,
    halone, fun hbefore hkept => release_eq_self fun cell hlost => ?_,
    fun q hq hlives _ _ src reader steps outcomes memory place crumbs demand trace => ?_,
    fun q hq hlives _ _ src reader steps outcomes memory place s hs => ?_⟩
  · split
    · next hlost => exact cells_release_of_loses hlost
    · next hlost => exact cells_release_of_not_loses hlost
  · -- who keeps the rule keeps what it keeps
    obtain ⟨q, info, hpath, hnode⟩ := halone hbefore cell hlost
    exact hlost.2 (keepsCell_iff.2 ⟨q, info, hkept.trans hpath, hnode⟩)
  · exact (sameBelow_release hg hq hlives).explore_call_eq .refl src reader steps outcomes memory
      place crumbs demand trace
  · exact (sameBelow_release hg hq hlives).explore_eq hs reader steps outcomes memory

/-- **A declared rule is defined once or not at all.** Whatever has been done before, a rule takes
a definition exactly if it was declared, or is a copy of such a rule, and no copy has taken one.
Whatever is refused is dropped, and that is all. From then on, and whatever is done later, every
copy is the definition that was taken. -/
theorem declared_rules_are_defined_once {log : Log} (h : g.History log) (held : List Rule)
    (r definition : Rule) :
    ((g.offer held r definition).1 = .ok () ↔ log.Undefined r) ∧
    (¬ log.Undefined r → ∃ f g', g.offer held r definition = (.error f, g') ∧
      g.Drops held definition g') ∧
    ∀ d, log.Defined r d → g.ActsAs r d := by
  refine ⟨h.offer_ok_iff held r definition, fun hrefused => ?_, fun d hdefined => ?_⟩
  · obtain ⟨f, hoffer⟩ := offer_error (mt (h.offer_ok_iff held r definition).1 hrefused)
    exact ⟨f, _, hoffer, drops_release h.kinded held definition⟩
  · obtain ⟨info, cell, weak, hnode, hcell⟩ := h.cell_of_defined hdefined
    exact actsAs_of_cell h.tracks.consistent hnode hcell

/-! ### A chain

A chain of letters, whose rule is declared and copied before it is defined by way of the copy. The
definition starts with the declared rule, and there is one more copy afterwards. -/

/-- The letters before the definition. -/
def chainAtFirst : Grammar Char Nat Unit where
  nodes := #[
    ⟨⟨0, .declared, none⟩, .reference 0 false⟩,
    ⟨⟨0, .declared, some "chain"⟩, .reference 0 false⟩,
    ⟨⟨1, .just, none⟩, .terminal fun c => .ok (if c = 'x' then some 1 else none)⟩,
    ⟨⟨2, .epsilon, none⟩, .epsilon 0⟩,
    ⟨⟨3, .sequence, none⟩, .sequence ⟨0⟩ [⟨2⟩] fun vs => .ok vs.sum⟩,
    ⟨⟨4, .oneOf, none⟩, .oneOf ⟨4⟩ [⟨3⟩]⟩]
  cells := #[.declared none]
  nextId := 5

/-- The letters after the definition, with a third copy. -/
def chain : Grammar Char Nat Unit where
  nodes := chainAtFirst.nodes.push ⟨⟨0, .declared, some "again"⟩, .reference 0 false⟩
  cells := #[.declared (some ⟨5⟩)]
  nextId := 5

/-- The rule is declared and copied. -/
def chainLogAtFirst : Log := [.labelled ⟨0⟩ ⟨1⟩, .declared ⟨0⟩]

/-- The copy takes the definition, the rule itself takes no other one, and the copy is copied. -/
def chainLog : Log :=
  .labelled ⟨1⟩ ⟨6⟩ :: .offered ⟨0⟩ ⟨3⟩ (.error .definedTwice) :: .offered ⟨1⟩ ⟨5⟩ (.ok ()) ::
    chainLogAtFirst

theorem chainAtFirst_history : chainAtFirst.History chainLogAtFirst := by
  let g₁ : Grammar Char Nat Unit := after declare empty
  let g₂ := after (Grammar.labelled ⟨0⟩ "chain") g₁
  let g₃ := after (make .just (.terminal fun c => .ok (if c = 'x' then some 1 else none))) g₂
  let g₄ := after (Grammar.make .epsilon (.epsilon 0)) g₃
  let g₅ := after (Grammar.make .sequence (.sequence ⟨0⟩ [⟨2⟩] fun vs => .ok vs.sum)) g₄
  have h₁ : g₁.History [.declared ⟨0⟩] := .declare .start
  have h₂ : g₂.History chainLogAtFirst := .labelled h₁ ⟨_, rfl, rfl⟩ "chain"
  have h₃ : g₃.History chainLogAtFirst := .other h₂ (unrelated_make .just rfl nofun)
  have h₄ : g₄.History chainLogAtFirst := .other h₃ (unrelated_make .epsilon rfl nofun)
  have h₅ : g₅.History chainLogAtFirst := by
    refine .other h₄ (unrelated_make .sequence rfl ?_)
    intro r hr
    rcases List.mem_cons.1 hr with rfl | hr
    · exact ⟨_, rfl, rfl⟩
    · cases List.mem_singleton.1 hr
      exact ⟨_, rfl, rfl⟩
  have h₆ : (after (Grammar.make .oneOf (.oneOf ⟨4⟩ [⟨3⟩])) g₅).History chainLogAtFirst := by
    refine .other h₅ (unrelated_make .oneOf rfl ?_)
    intro r hr
    rcases List.mem_cons.1 hr with rfl | hr
    · exact ⟨_, rfl, rfl⟩
    · cases List.mem_singleton.1 hr
      exact ⟨_, rfl, rfl⟩
  exact h₆

theorem chain_history : chain.History chainLog := by
  have htaken : (chainAtFirst.offer [⟨1⟩] ⟨1⟩ ⟨5⟩).2.History
      (.offered ⟨1⟩ ⟨5⟩ (.ok ()) :: chainLogAtFirst) :=
    .offer chainAtFirst_history [⟨1⟩] ⟨1⟩ ⟨_, rfl, rfl⟩
  have hrelease : (chainAtFirst.offer [⟨1⟩] ⟨1⟩ ⟨5⟩).2.release [⟨1⟩]
      = (chainAtFirst.offer [⟨1⟩] ⟨1⟩ ⟨5⟩).2 := by
    refine release_of_no_recursive (fun cell body => ?_) _
    match cell with
    | 0 | n + 1 => exact nofun
  have hrefused : ((chainAtFirst.offer [⟨1⟩] ⟨1⟩ ⟨5⟩).2.offer [⟨1⟩] ⟨0⟩ ⟨3⟩).2.History
      (.offered ⟨0⟩ ⟨3⟩ (.error .definedTwice) :: .offered ⟨1⟩ ⟨5⟩ (.ok ()) :: chainLogAtFirst) :=
    .offer htaken [⟨1⟩] ⟨0⟩ ⟨_, rfl, rfl⟩
  rw [show ((chainAtFirst.offer [⟨1⟩] ⟨1⟩ ⟨5⟩).2.offer [⟨1⟩] ⟨0⟩ ⟨3⟩).2
    = (chainAtFirst.offer [⟨1⟩] ⟨1⟩ ⟨5⟩).2.release [⟨1⟩] from rfl, hrelease] at hrefused
  exact .labelled (r := ⟨1⟩) hrefused ⟨_, rfl, rfl⟩ "again"

theorem chain_release (held : List Rule) : chain.release held = chain := by
  refine release_of_no_recursive (fun cell body => ?_) held
  match cell with
  | 0 | n + 1 => exact nofun

/-- Who has the last copy has the definition as well, and so the empty chain. -/
theorem chain_keeps : chain.KeepsRule [⟨6⟩] ⟨3⟩ := by
  have hlast : chain.Keeps ⟨6⟩ ⟨5⟩ := List.mem_singleton_self (⟨5⟩ : Rule)
  have hchoice : chain.Keeps ⟨5⟩ ⟨3⟩ :=
    List.mem_cons_of_mem (⟨4⟩ : Rule) (List.mem_singleton_self (⟨3⟩ : Rule))
  exact ((KeepsRule.of_mem (List.mem_singleton_self _)).tail hlast).tail hchoice

theorem chain_closed : chain.Closed := closed_of_all rfl rfl

theorem chain_complete : chain.Complete ⟨6⟩ := by
  refine chain_closed.complete (fun cell hcell => ?_) ⟨_, rfl⟩
  match cell, hcell with
  | 0, _ => exact ⟨⟨5⟩, rfl⟩

theorem chain_total : chain.Total ⟨6⟩ :=
  total_of_all (by simp [chain, chainAtFirst, Form.Total]) _

theorem chainLogAtFirst_undefined : chainLogAtFirst.Undefined ⟨1⟩ := by
  refine ⟨rfl, ?_⟩
  rintro d ⟨q, hmem, -⟩
  simp [chainLogAtFirst] at hmem

theorem chainLog_defined : chainLog.Defined ⟨6⟩ ⟨5⟩ := ⟨⟨1⟩, by simp [chainLog], rfl⟩

/-- The copy takes a definition at first. Later on a copy of the copy takes none, and it is the
definition, also when the chain starts again at once. -/
theorem chain_is_defined_once :
    chainAtFirst.History chainLogAtFirst ∧ (chainAtFirst.offer [⟨1⟩] ⟨1⟩ ⟨5⟩).1 = .ok () ∧
    chain.History chainLog ∧ (∃ f, chain.offer [⟨6⟩] ⟨6⟩ ⟨3⟩ = (.error f, chain)) ∧
    ∃ (found : Array (Sighting Char Nat)) (t : State Char Nat)
      (found' : Array (Sighting Char Nat)) (t' : State Char Nat),
      Settles chain (Source.ofList ['x']) collect found t chain ⟨#[], none⟩
        ⟨.call ⟨6⟩ ⟨1, 0⟩ (Crumbs.root.enter 4 0), [], 1, .silent⟩ ∧
      Settles chain (Source.ofList ['x']) collect found' t' chain ⟨#[], none⟩
        ⟨.call ⟨5⟩ ⟨1, 0⟩ (Crumbs.root.enter 4 0), [], 1, .silent⟩ ∧
      Outcome.AllLike (BlamesAlike 0 4) (found.toList.map (·.outcome))
        (found'.toList.map (·.outcome)) ∧
      found.toList.map (·.outcome.remaining ['x'])
        = found'.toList.map (·.outcome.remaining ['x']) := by
  have hfirst := declared_rules_are_defined_once chainAtFirst_history [⟨1⟩] ⟨1⟩ ⟨5⟩
  obtain ⟨-, hrefused, hacts⟩ := declared_rules_are_defined_once chain_history [⟨6⟩] ⟨6⟩ ⟨3⟩
  obtain ⟨f, g', hoffer, hdrops⟩ := hrefused fun h => h.undefined _ chainLog_defined
  -- the letter that was offered stays a part of the definition
  obtain rfl := hdrops.shared (chain_release _) chain_keeps
  exact ⟨chainAtFirst_history, hfirst.1.2 chainLogAtFirst_undefined, chain_history,
    ⟨f, hoffer⟩,
    (hacts ⟨5⟩ chainLog_defined).outcomes chain (.refl chain_closed)
      chain_history.tracks.consistent chain_complete chain_total ['x'] ⟨1, 0⟩
      (Crumbs.root.enter 4 0) 1 .silent fun hheld => absurd hheld (by decide)⟩

/-- The declared rule is blamed if a copy is called, the definition if it is called itself. -/
example :
    chain.outcomes ['x'] ⟨6⟩ ⟨0, 0⟩ ([] : Path)
      = [.circle ⟨0, 0⟩ ⟨0, .declared, none⟩, .success ⟨0, 0⟩ 0] ∧
    chain.outcomes ['x'] ⟨5⟩ ⟨0, 0⟩ ([] : Path)
      = [.circle ⟨0, 0⟩ ⟨4, .oneOf, none⟩, .success ⟨0, 0⟩ 0] :=
  ⟨rfl, rfl⟩

/-! ### Letters in parentheses

The letter a under a declared name, and the letter x in any number of parentheses. The latter is a
recursive rule, and its self reference has a name of its own. -/

/-- A letter in brackets, which are only opened, beside a declared rule that is defined. -/
def brackets : Grammar Char Nat Unit where
  nodes := #[
    ⟨⟨0, .declared, none⟩, .reference 0 false⟩,
    ⟨⟨1, .just, none⟩, .terminal fun c => .ok (if c = 'a' then some 1 else none)⟩,
    ⟨⟨2, .recursive, none⟩, .reference 1 true⟩,
    ⟨⟨3, .just, none⟩, .terminal fun c => .ok (if c = 'x' then some 1 else none)⟩,
    ⟨⟨4, .just, none⟩, .terminal fun c => .ok (if c = '(' then some 0 else none)⟩,
    ⟨⟨5, .sequence, none⟩, .sequence ⟨4⟩ [⟨2⟩] fun vs => .ok vs.sum⟩,
    ⟨⟨6, .oneOf, none⟩, .oneOf ⟨3⟩ [⟨5⟩]⟩,
    ⟨⟨2, .recursive, none⟩, .reference 1 false⟩]
  cells := #[.declared (some ⟨1⟩), .recursive ⟨6⟩]
  nextId := 7

/-- The same once the recursive rule is gone. -/
def bracketsAfterwards : Grammar Char Nat Unit :=
  { brackets with cells := #[.declared (some ⟨1⟩), .released] }

theorem brackets_built : brackets.Built := by
  let g₁ : Grammar Char Nat Unit := after declare empty
  let g₂ := after (make .just (.terminal fun c => .ok (if c = 'a' then some 1 else none))) g₁
  let g₃ := g₂.setCell 0 (.declared (some ⟨1⟩))
  let g₄ := after openRecursive g₃
  let g₅ := after (make .just (.terminal fun c => .ok (if c = 'x' then some 1 else none))) g₄
  let g₆ := after (make .just (.terminal fun c => .ok (if c = '(' then some 0 else none))) g₅
  let g₇ := after (make .sequence (.sequence ⟨4⟩ [⟨2⟩] fun vs => .ok vs.sum)) g₆
  let g₈ := after (make .oneOf (.oneOf ⟨3⟩ [⟨5⟩])) g₇
  have h₁ : g₁.Built := .single .declare
  have h₂ : g₂.Built := h₁.tail (.make rfl nofun)
  have hdefine : g₂.define ⟨0⟩ ⟨1⟩ = .ok g₃ := rfl
  have h₃ : g₃.Built := h₂.tail (.define ⟨_, rfl, rfl⟩ hdefine)
  have h₄ : g₄.Built := h₃.tail .openRecursive
  have h₅ : g₅.Built := h₄.tail (.make rfl nofun)
  have h₆ : g₆.Built := h₅.tail (.make rfl nofun)
  have h₇ : g₇.Built := by
    refine h₆.tail (.make rfl ?_)
    intro r hr
    rcases List.mem_cons.1 hr with rfl | hr
    · exact ⟨_, rfl, rfl⟩
    · cases List.mem_singleton.1 hr
      exact ⟨_, rfl, rfl⟩
  have h₈ : g₈.Built := by
    refine h₇.tail (.make rfl ?_)
    intro r hr
    rcases List.mem_cons.1 hr with rfl | hr
    · exact ⟨_, rfl, rfl⟩
    · cases List.mem_singleton.1 hr
      exact ⟨_, rfl, rfl⟩
  have hclose : g₈.Change (after (closeRecursive ⟨⟨2, .recursive, none⟩, 1, ⟨2⟩⟩ ⟨6⟩) g₈) :=
    .closeRecursive rfl rfl ⟨_, rfl, rfl⟩
  exact h₈.tail hclose

/-- As long as somebody has the recursive rule, nothing is released. -/
theorem brackets_release : brackets.release [⟨7⟩, ⟨0⟩, ⟨2⟩] = brackets := by
  refine release_eq_self fun cell hlost => ?_
  obtain ⟨⟨body, hbody⟩, hkept⟩ := hlost
  match cell with
  | 0 | n + 2 => cases hbody
  | 1 => exact hkept (keepsCell_iff.2 ⟨⟨7⟩, _, .of_mem (List.mem_cons_self ..), rfl⟩)

/-- The self reference does not keep it. -/
theorem brackets_release_afterwards : brackets.release [⟨0⟩, ⟨2⟩] = bracketsAfterwards := by
  have hlost : brackets.Loses [⟨0⟩, ⟨2⟩] 1 :=
    ⟨⟨⟨6⟩, rfl⟩, mt mem_keptCells_kept.2 (by decide +kernel)⟩
  have hcells : (brackets.release [⟨0⟩, ⟨2⟩]).cells = bracketsAfterwards.cells := by
    refine Array.ext_getElem? fun cell => ?_
    match cell with
    | 0 | n + 2 =>
        refine (cells_release_of_not_loses fun hlost => ?_).trans rfl
        obtain ⟨⟨body, hbody⟩, -⟩ := hlost
        cases hbody
    | 1 => exact cells_release_of_loses hlost
  have hnodes := brackets.release_nodes [⟨0⟩, ⟨2⟩]
  have hnextId := brackets.release_nextId [⟨0⟩, ⟨2⟩]
  generalize brackets.release [⟨0⟩, ⟨2⟩] = g at *
  obtain ⟨nodes, cells, nextId⟩ := g
  exact congr (congr (congrArg Grammar.mk hnodes) hcells) hnextId

/-- A declared rule that is defined refuses the recursive rule, which nobody else has but by its
self reference. The self reference was good for the letter x, and now it leads nowhere. -/
theorem refused_definition_is_lost :
    ∃ log, brackets.History log ∧ ¬ log.Undefined ⟨0⟩ ∧
      brackets.release [⟨7⟩, ⟨0⟩, ⟨2⟩] = brackets ∧
      brackets.offer [⟨0⟩, ⟨2⟩] ⟨0⟩ ⟨7⟩ = (.error .definedTwice, bracketsAfterwards) ∧
      (∃ (found : Array (Sighting Char Nat)) (t : State Char Nat),
        explore brackets (Source.ofList ['x']) collect 99 9 ⟨#[], none⟩
          (.calling ⟨2⟩ ⟨0, 0⟩ .silent) = .answer found t ∧
        found.toList.map (·.outcome)
          = [.success ⟨1, 1⟩ 1, .failure ⟨0, .unexpected 'x'⟩ 0]) ∧
      explore bracketsAfterwards (Source.ofList ['x']) collect 99 9 ⟨#[], none⟩
        (.calling ⟨2⟩ ⟨0, 0⟩ .silent) = .fault .unboundSelf := by
  obtain ⟨log, hlog⟩ := built_iff_exists_history.1 brackets_built
  have hoffer : brackets.offer [⟨0⟩, ⟨2⟩] ⟨0⟩ ⟨7⟩ = (.error .definedTwice, bracketsAfterwards) :=
    congrArg (Prod.mk _) brackets_release_afterwards
  have hdefined : ¬ log.Undefined ⟨0⟩ := fun h => by
    have hok := (hlog.offer_ok_iff [⟨0⟩, ⟨2⟩] ⟨0⟩ ⟨7⟩).2 h
    rw [hoffer] at hok
    cases hok
  exact ⟨log, hlog, hdefined, brackets_release, hoffer, ⟨_, _, rfl, rfl⟩, rfl⟩

end Grammar

end LazyGrammar

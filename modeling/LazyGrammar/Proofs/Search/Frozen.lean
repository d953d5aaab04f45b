import LazyGrammar.Proofs.Analysis.Again
import LazyGrammar.Proofs.Recursion.FailFast
import LazyGrammar.Proofs.Rule.Meanwhile

/-!
# LazyGrammar.Proofs.Search.Frozen

**A rule that has been analysed is frozen.** Whatever happens to the grammar from then on, the
rules below it have been made and defined once and for all, another analysis tells the same of
them, and parses give the same answers (`analysed_is_frozen`).

A search only looks at rules and cells below its root. So it is the same in a grammar in which
these are the same (`Grammar.SameBelow.explore_eq`).
-/

namespace LazyGrammar

variable {τ α σ κ ρ : Type} {g g' : Grammar τ α σ} {src : Source τ} {root : Rule}

theorem Grammar.Frozen.sameBelow (h : g.Frozen root g') (hcomplete : g.Complete root) :
    g.SameBelow root g' where
  node hr := by
    obtain ⟨info, form, hnode, -⟩ := hcomplete _ hr
    rw [hnode, h.node hnode]
  target := h.target

/-! ### Analysed rules -/

/-- A reference below a complete rule has what its kind says in its cell: a lazy rule has been
made, a declared one has its definition. -/
theorem Grammar.Kinded.content {r : Rule} {info : RuleInfo} {cell : CellId} {weak : Bool}
    (h : g.Kinded) (hcomplete : g.Complete root) (hr : g.Reaches root r)
    (hnode : g.node? r = some ⟨info, .reference cell weak⟩) :
    (info.kind = .lazy → ∃ made, g.cells[cell]? = some (.supplied made)) ∧
      (info.kind = .declared →
        ∃ definition, g.cells[cell]? = some (.declared (some definition))) := by
  obtain ⟨r', htarget, -⟩ := hcomplete.reference hr hnode
  obtain ⟨content, hcell, hkind⟩ := h.cell hnode
  rw [target_eq hcell] at htarget
  rw [hcell]
  constructor
  · intro hlazy
    have hsupplied : content.kind = (Cell.supplied r' : Cell σ).kind := hkind.trans hlazy
    exact ⟨r', congrArg some (Cell.eq_of_kind hsupplied htarget rfl)⟩
  · intro hdeclared
    have hdefined : content.kind = (Cell.declared (some r') : Cell σ).kind := hkind.trans hdeclared
    exact ⟨r', congrArg some (Cell.eq_of_kind hdefined htarget rfl)⟩

/-- A declared rule that has its definition refuses another one. -/
theorem Grammar.define_defined {r definition : Rule} {info : RuleInfo} {cell : CellId} {weak : Bool}
    (hnode : g.node? r = some ⟨info, .reference cell weak⟩)
    (hcell : g.cells[cell]? = some (.declared (some definition))) (other : Rule) :
    g.define r other = .error .definedTwice := by
  simp only [define, form?, hnode, Option.map_some, hcell]

/-- **A rule that has been analysed is frozen.** Whatever happens from then on, as long as the
recursive rules live whose self references it uses: every lazy rule below it has been made by the
rule that its supplier gave then, every declared rule has the definition that it had then and no
other; another analysis finds the same, and tells the same of every rule; and a parse of a list of
tokens comes to one answer, without waiting for a rule. Whoever uses a rule below it, on whatever
input and with whatever budget, finds the same as then. -/
theorem analysed_is_frozen {a : Analysis} (haccepts : g.Accepts root a)
    (hretains : g.Retains root) (htotal : g.Total root) :
    (∀ g', g.Meanwhile root g' → ∀ r info cell weak, g'.Reaches root r →
      g'.node? r = some ⟨info, .reference cell weak⟩ →
      (info.kind = .lazy → ∃ made,
        g.cells[cell]? = some (.supplied made) ∧ g'.cells[cell]? = some (.supplied made)) ∧
      (info.kind = .declared → ∃ definition,
        g.cells[cell]? = some (.declared (some definition)) ∧
        g'.cells[cell]? = some (.declared (some definition)) ∧
        ∀ other, g'.define r other = .error .definedTwice)) ∧
    (∃ s, a = .ofSurvey s ∧ ∀ g', g.Meanwhile root g' →
      (Survey.start root).complete g' = .finished s) ∧
    (∀ (tokens : List τ) (trace : Trace), ∃ v t, ∀ g', g.Meanwhile root g' →
      Ends (Source.ofList tokens) verdict [g'] none (.calling root ⟨0, 0⟩ trace) v t) ∧
    ∀ {κ ρ : Type} (g' : Grammar τ α σ), g.Meanwhile root g' → ∀ r, g'.Reaches root r →
      ∀ (src : Source τ) (reader : Reader τ α κ ρ) (steps outcomes : Nat) (memory : κ)
        (place : Place) (crumbs : Crumbs) (demand : Nat) (trace : Trace),
      explore g' src reader steps outcomes memory ⟨.call r place crumbs, [], demand, trace⟩
        = explore g src reader steps outcomes memory
            ⟨.call r place crumbs, [], demand, trace⟩ := by
  have hkinded := haccepts.kinded
  have hcomplete := haccepts.complete hretains
  refine ⟨?_, ?_, ?_, ?_⟩
  · intro g' hmeanwhile r info cell weak hr hnode
    have hfrozen := hmeanwhile.frozen hkinded hcomplete
    have hreach := (hfrozen.reaches_iff hcomplete).1 hr
    obtain ⟨_, _, hthen, -⟩ := hcomplete r hreach
    rw [hfrozen.node?_eq ⟨_, hthen⟩] at hnode
    obtain ⟨hlazy, hdeclared⟩ := hkinded.content hcomplete hreach hnode
    rw [hfrozen.cell hreach hnode]
    refine ⟨fun hkind => ?_, fun hkind => ?_⟩
    · obtain ⟨made, hmade⟩ := hlazy hkind
      exact ⟨made, hmade, hmade⟩
    · obtain ⟨definition, hdefinition⟩ := hdeclared hkind
      refine ⟨definition, hdefinition, hdefinition, fun other => ?_⟩
      exact Grammar.define_defined (hfrozen.node hnode)
        ((hfrozen.cell hreach hnode).trans hdefinition) other
  · obtain ⟨s, ha, hagain⟩ := haccepts.again
    refine ⟨s, ha, fun g' hmeanwhile => hagain g' hmeanwhile.evolves ?_⟩
    exact (hmeanwhile.frozen hkinded hcomplete).retains hcomplete
  · intro tokens trace
    obtain ⟨visited, v, t, hwalks⟩ := haccepts.walks hretains htotal tokens trace
    have hends : Ends (Source.ofList tokens) verdict [g] none (.calling root ⟨0, 0⟩ trace) v t :=
      ends_iff.2 ⟨visited, hwalks⟩
    refine ⟨v, t, fun g' hmeanwhile => ?_⟩
    cases hends with
    | answer hanswer =>
        have hfrozen := hmeanwhile.frozen hkinded hcomplete
        exact .answer (((hfrozen.sameBelow hcomplete).explore_call_eq .refl ..).trans hanswer)
    | waiting _ hlater => cases hlater
  · intro κ ρ g' hmeanwhile r hr src reader steps outcomes memory place crumbs demand trace
    have hfrozen := hmeanwhile.frozen hkinded hcomplete
    exact (hfrozen.sameBelow hcomplete).explore_call_eq ((hfrozen.reaches_iff hcomplete).1 hr) ..

/-! ### Words

Any number of the letter y and then the letter x. The rule for x is declared and defined, the one
for y is made by a supplier. -/

namespace Grammar

/-- The grammar of words before the rule for y has been made. -/
def wordsAtFirst : Grammar Char Nat Unit where
  nodes := #[
    ⟨⟨0, .declared, none⟩, .reference 0 false⟩,
    ⟨⟨1, .lazy, none⟩, .reference 1 false⟩,
    ⟨⟨2, .recursive, none⟩, .reference 2 true⟩,
    ⟨⟨3, .sequence, none⟩, .sequence ⟨1⟩ [⟨2⟩] fun vs => .ok vs.sum⟩,
    ⟨⟨4, .oneOf, none⟩, .oneOf ⟨0⟩ [⟨3⟩]⟩,
    ⟨⟨2, .recursive, none⟩, .reference 2 false⟩,
    ⟨⟨5, .just, none⟩, .terminal fun c => .ok (if c = 'x' then some 1 else none)⟩]
  cells := #[.declared (some ⟨6⟩), .deferred (), .recursive ⟨4⟩]
  nextId := 6

/-- The grammar of words. Its root is the rule with place 5. -/
def words : Grammar Char Nat Unit where
  nodes := wordsAtFirst.nodes.push
    ⟨⟨6, .just, none⟩, .terminal fun c => .ok (if c = 'y' then some 1 else none)⟩
  cells := #[.declared (some ⟨6⟩), .supplied ⟨7⟩, .recursive ⟨4⟩]
  nextId := 7

theorem wordsAtFirst_built : wordsAtFirst.Built := by
  let g₁ : Grammar Char Nat Unit := after declare empty
  let g₂ := after (deferred ()) g₁
  let g₃ := after openRecursive g₂
  let g₄ := after (make .sequence (.sequence ⟨1⟩ [⟨2⟩] fun vs => .ok vs.sum)) g₃
  let g₅ := after (make .oneOf (.oneOf ⟨0⟩ [⟨3⟩])) g₄
  let g₆ := after (closeRecursive ⟨⟨2, .recursive, none⟩, 2, ⟨2⟩⟩ ⟨4⟩) g₅
  let g₇ := after (make .just (.terminal fun c => .ok (if c = 'x' then some 1 else none))) g₆
  have h₁ : g₁.Built := .single .declare
  have h₂ : g₂.Built := h₁.tail .deferred
  have h₃ : g₃.Built := h₂.tail .openRecursive
  have h₄ : g₄.Built := by
    refine h₃.tail (.make rfl ?_)
    intro r hr
    rcases List.mem_cons.1 hr with rfl | hr
    · exact ⟨_, rfl, rfl⟩
    · cases List.mem_singleton.1 hr
      exact ⟨_, rfl, rfl⟩
  have h₅ : g₅.Built := by
    refine h₄.tail (.make rfl ?_)
    intro r hr
    rcases List.mem_cons.1 hr with rfl | hr
    · exact ⟨_, rfl, rfl⟩
    · cases List.mem_singleton.1 hr
      exact ⟨_, rfl, rfl⟩
  have h₆ : g₆.Built := h₅.tail (.closeRecursive rfl rfl ⟨_, rfl, rfl⟩)
  have h₇ : g₇.Built := h₆.tail (.make rfl nofun)
  have hdefine : g₇.define ⟨0⟩ ⟨6⟩ = .ok wordsAtFirst := rfl
  exact h₇.tail (.define ⟨_, rfl, rfl⟩ hdefine)

/-- The supplier runs. -/
theorem wordsAtFirst_evolves : wordsAtFirst.Evolves words := by
  let g₁ := wordsAtFirst.setCell 1 .computing
  let g₂ := after (make .just (.terminal fun c => .ok (if c = 'y' then some 1 else none))) g₁
  have hdeferred : wordsAtFirst.cells[1]? = some (.deferred ()) := rfl
  have hcomputing : g₂.cells[1]? = some .computing := rfl
  have hmade : g₂.Usable ⟨7⟩ := ⟨_, rfl, rfl⟩
  have h₁ : wordsAtFirst.Evolves g₁ := .single (.supplying hdeferred)
  have h₂ : wordsAtFirst.Evolves g₂ := h₁.tail (.make rfl nofun)
  exact h₂.tail (.supplied hcomputing hmade)

theorem words_accepts : ∃ a, words.Accepts ⟨5⟩ a := by
  have hrun : ∃ s₁, (Survey.start ⟨5⟩).run wordsAtFirst 6 = .waiting 1 s₁ ∧
      ∃ s, s₁.run words 6 = .finished s := by
    simp [Survey.run, Survey.step, Survey.enter, Survey.start, words, wordsAtFirst, node?, info,
      Grammar.target, Cell.target, Form.parts]
  obtain ⟨s₁, hwaiting, s, hfinished⟩ := hrun
  exact ⟨_, wordsAtFirst, s, wordsAtFirst_built, ⟨_, rfl⟩,
    .waiting hwaiting wordsAtFirst_evolves (.finished hfinished .refl), rfl⟩

theorem words_retains : words.Retains ⟨5⟩ := by
  intro r info cell weak hreach hnode hreleased
  match cell with
  | 0 | 1 | 2 => cases hreleased
  | n + 3 => cases hreleased

theorem words_total : words.Total ⟨5⟩ :=
  total_of_all (by simp [words, wordsAtFirst, Form.Total]) _

/-- The grammar of words with another recursive rule, which is just the letter x. -/
def wordsAndLetter : Grammar Char Nat Unit :=
  after (closeRecursive ⟨⟨7, .recursive, none⟩, 3, ⟨8⟩⟩ ⟨6⟩) (after openRecursive words)

/-- The grammar of words after the other recursive rule has been given up. -/
def wordsAlone : Grammar Char Nat Unit := wordsAndLetter.release [⟨5⟩]

theorem words_letter : words.Meanwhile ⟨5⟩ wordsAndLetter := by
  have hopen : words.Act ⟨5⟩ (after openRecursive words) := by
    refine .change .openRecursive fun cell hreleased => ?_
    match cell with
    | 0 | 1 | 2 | 3 => cases hreleased
    | n + 4 => cases hreleased
  have hclose : (after openRecursive words).Act ⟨5⟩ wordsAndLetter := by
    refine .change (.closeRecursive rfl rfl ⟨_, rfl, rfl⟩) fun cell hreleased => ?_
    match cell with
    | 0 | 1 | 2 | 3 => cases hreleased
    | n + 4 => cases hreleased
  exact (Relation.ReflTransGen.single hopen).tail hclose

/-- Only the recursive rule of the words is kept. -/
theorem wordsAlone_cells :
    wordsAlone.cells[2]? = some (.recursive ⟨4⟩) ∧ wordsAlone.cells[3]? = some .released := by
  have hkept : wordsAndLetter.KeepsCell [⟨5⟩] 2 := mem_keptCells_kept.1 (by decide +kernel)
  have hgone : ¬ wordsAndLetter.KeepsCell [⟨5⟩] 3 := mt mem_keptCells_kept.2 (by decide +kernel)
  have hwords : wordsAndLetter.cells[2]? = some (.recursive ⟨4⟩) := rfl
  have hletter : wordsAndLetter.cells[3]? = some (.recursive ⟨6⟩) := rfl
  rw [wordsAlone, cells_release, cells_release, hwords, hletter]
  simp [hkept, hgone]

/-- Another recursive rule is made, the rule for x is defined once more, which is refused, and
the other recursive rule is given up. -/
theorem words_meanwhile : words.Meanwhile ⟨5⟩ wordsAlone := by
  obtain ⟨a, haccepts⟩ := words_accepts
  have hcomplete := haccepts.complete words_retains
  have hfrozen := words_letter.frozen haccepts.kinded hcomplete
  have hrefused : wordsAndLetter.define ⟨0⟩ ⟨9⟩ = .error .definedTwice := rfl
  have hdrop : wordsAndLetter.Act ⟨5⟩ wordsAlone := by
    refine .drop (List.mem_singleton.2 rfl) fun r info cell hr hnode hreleased => ?_
    -- the only self reference below the root is that of the words
    rw [hfrozen.reaches_iff hcomplete] at hr
    rw [hfrozen.node?_eq (haccepts.consistent.closed.has_of_reaches ⟨_, rfl⟩ hr)] at hnode
    match r with
    | ⟨2⟩ =>
        cases hnode
        cases wordsAlone_cells.1.symm.trans hreleased
    | ⟨0⟩ | ⟨1⟩ | ⟨3⟩ | ⟨4⟩ | ⟨5⟩ | ⟨6⟩ | ⟨7⟩ => cases hnode
    | ⟨n + 8⟩ => cases hnode
  exact (words_letter.tail (.refused hrefused)).tail hdrop

end Grammar

/-- The grammar of words is frozen while other rules come and go. -/
theorem words_analysed_is_frozen :
    ∃ a s t, Grammar.words.Accepts ⟨5⟩ a ∧ Grammar.words.Retains ⟨5⟩ ∧ Grammar.words.Total ⟨5⟩ ∧
      Grammar.words.Meanwhile ⟨5⟩ Grammar.wordsAlone ∧
      Grammar.wordsAlone.cells[3]? = some .released ∧
      Grammar.wordsAlone.cells[1]? = some (.supplied ⟨7⟩) ∧
      Grammar.wordsAlone.define ⟨0⟩ ⟨9⟩ = .error .definedTwice ∧
      a = .ofSurvey s ∧ (Survey.start ⟨5⟩).complete Grammar.wordsAlone = .finished s ∧
      Ends (Source.ofList ['y', 'x']) verdict [Grammar.wordsAlone] none
        (.calling ⟨5⟩ ⟨0, 0⟩ .silent) (.ok 2) t := by
  obtain ⟨a, haccepts⟩ := Grammar.words_accepts
  obtain ⟨hcells, ⟨s, ha, hsurvey⟩, hparse, -⟩ :=
    analysed_is_frozen haccepts Grammar.words_retains Grammar.words_total
  have hmeanwhile := Grammar.words_meanwhile
  have hcomplete := haccepts.complete Grammar.words_retains
  have hfrozen := hmeanwhile.frozen haccepts.kinded hcomplete
  have hchoice : Grammar.words.Uses ⟨5⟩ ⟨4⟩ := .target rfl rfl
  have hdeclared : Grammar.words.Reaches ⟨5⟩ ⟨0⟩ :=
    (Relation.ReflTransGen.single hchoice).tail (.part rfl (List.mem_cons_self ..))
  have hlazy : Grammar.words.Reaches ⟨5⟩ ⟨1⟩ :=
    ((Relation.ReflTransGen.single hchoice).tail
      (.part rfl (List.mem_cons_of_mem _ (List.mem_cons_self ..)))).tail
        (.part rfl (List.mem_cons_self ..))
  obtain ⟨-, -, -, hrefused⟩ := (hcells _ hmeanwhile ⟨0⟩ _ 0 false
    ((hfrozen.reaches_iff hcomplete).2 hdeclared) (hfrozen.node rfl)).2 rfl
  obtain ⟨made, hmade, hkept⟩ := (hcells _ hmeanwhile ⟨1⟩ _ 1 false
    ((hfrozen.reaches_iff hcomplete).2 hlazy) (hfrozen.node rfl)).1 rfl
  cases hmade
  obtain ⟨v, t, hends⟩ := hparse ['y', 'x'] .silent
  have hthen : ∃ t, explore Grammar.words (Source.ofList ['y', 'x']) verdict 99 9 none
      (.calling ⟨5⟩ ⟨0, 0⟩ .silent) = .answer (.ok 2) t := ⟨_, rfl⟩
  obtain ⟨t', hthen⟩ := hthen
  obtain ⟨rfl, rfl⟩ := (hends _ .refl).unique (.answer hthen)
  exact ⟨a, s, _, haccepts, Grammar.words_retains, Grammar.words_total, hmeanwhile,
    Grammar.wordsAlone_cells.2, hkept, hrefused ⟨9⟩, ha, hsurvey _ hmeanwhile, hends _ hmeanwhile⟩

end LazyGrammar

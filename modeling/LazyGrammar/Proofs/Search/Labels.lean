import LazyGrammar.Proofs.Analysis.Labels

/-!
# LazyGrammar.Proofs.Search.Labels

**Labels never change a parse.** Grammars that only differ in labels have rules with the same
identities, get the same analysis, and give the same outcomes, the same answers and the same
events, up to the labels that are shown (`labels_change_nothing`).

A search enters a rule under the label of the copy that it has met, but whether it enters it is
decided by the identity, which all copies share. So searches of twins go side by side, in the
likeness of copies.
-/

namespace LazyGrammar

variable {τ α σ κ ρ : Type} {T : Twins τ α σ} {src : Source τ} {reader : Reader τ α κ ρ}
  {steps outcomes : Nat} {s s' : State τ α} {r r' root root' : Rule}

/-! ### Walks while rules are made -/

/-- A walk that goes on in the next of some grammars where it has to wait for a rule, with the
same budget in each of them. -/
def exploreThrough (src : Source τ) (reader : Reader τ α κ ρ) (steps outcomes : Nat) :
    List (Grammar τ α σ) → κ → State τ α → Exploration τ α κ ρ
  | [], _, _ => .unfinished
  | g :: gs, memory, s =>
    match explore g src reader steps outcomes memory s with
    | .waiting _ memory s => exploreThrough src reader steps outcomes gs memory s
    | stop => stop

namespace Twins

/-- Twins are alike wherever a search may come. -/
theorem Mirrors.like (h : T.Mirrors) : T.plain.Like (.copies T.Copy) T.labelled where
  call := by
    intro r r' crumbs p hcopy
    obtain ⟨node, node', hnode, hnode', hlike⟩ := h.node hcopy
    cases hheld : crumbs.holds node.info.id p.consumed with
    | true => exact .refused hnode hnode' hlike.info.id.symm hlike.info hheld
    | false => exact .entered hnode hnode' hlike.info.id.symm hlike.info hheld (hlike.form _)
  target _ := h.target _ _

theorem calling_like (hcopy : T.Copy r r') (p : Place) (trace : Trace) :
    (State.calling r p trace : State τ α).Like (.copies T.Copy) (.calling r' p trace) :=
  ⟨.call p hcopy, .nil, rfl, .refl .refl trace⟩

/-- Twins stay alike while rules are made. -/
theorem Mirrors.stage {T' : Twins τ α σ} {Ts : List (Twins τ α σ)} (h : T.Mirrors)
    (hTs : List.IsChain Evolves (T :: Ts)) (hmem : T' ∈ T :: Ts) : T'.Mirrors := by
  induction Ts generalizing T with
  | nil => exact List.mem_singleton.1 hmem ▸ h
  | cons T₁ Ts ih =>
      obtain ⟨hevolves, hTs⟩ := List.isChain_cons_cons.1 hTs
      rcases List.mem_cons.1 hmem with rfl | hmem
      · exact h
      · exact ih (hevolves.mirrors h) hTs hmem

/-- Walks keep in step while rules are made. -/
theorem Mirrors.exploreThrough_like {Ts : List (Twins τ α σ)} {M : κ → κ → Prop}
    {A : ρ → ρ → Prop} (h : T.Mirrors) (hTs : List.IsChain Evolves (T :: Ts))
    (hreader : reader.Respects RuleInfo.Alike M A) {m m' : κ} (hm : M m m')
    (hs : s.Like (.copies T.Copy) s') :
    ∃ T' ∈ T :: Ts, Exploration.Like (.copies T'.Copy) M A
      (exploreThrough src reader steps outcomes (Ts.map (·.plain)) m s)
      (exploreThrough src reader steps outcomes (Ts.map (·.labelled)) m' s') := by
  induction Ts generalizing T m m' s s' with
  | nil => exact ⟨T, List.mem_singleton_self _, .unfinished⟩
  | cons T₁ Ts ih =>
      obtain ⟨hevolves, hTs⟩ := List.isChain_cons_cons.1 hTs
      have h₁ := hevolves.mirrors h
      have hs₁ := hs.mono (Likeness.copies_le hevolves.keepsCopy)
      have hexplore := explore_like hreader h₁.like src steps outcomes hm hs₁
      have hmem : T₁ ∈ T :: T₁ :: Ts := List.mem_cons_of_mem _ (List.mem_cons_self ..)
      rw [List.map_cons, List.map_cons, exploreThrough, exploreThrough]
      generalize explore T₁.plain src reader steps outcomes m s = found,
        explore T₁.labelled src reader steps outcomes m' s' = found' at hexplore
      cases hexplore with
      | waiting cell hm hs =>
          obtain ⟨T', hT', hlike⟩ := ih h₁ hTs hm hs
          exact ⟨T', List.mem_cons_of_mem _ hT', hlike⟩
      | answer hr hs => exact ⟨T₁, hmem, .answer hr hs⟩
      | fault f => exact ⟨T₁, hmem, .fault f⟩
      | circular => exact ⟨T₁, hmem, .circular⟩
      | unfinished => exact ⟨T₁, hmem, .unfinished⟩

end Twins

/-! ### Answers -/

/-- The same answer, as far as answers are compared: failures are compared with the rules that
they blame by identity. -/
inductive Verdict.Same [BEq τ] : Verdict τ α → Verdict τ α → Prop
  | ok (v : α) : Verdict.Same (.ok v) (.ok v)
  | error {es es' : ParseErrors τ}
      (h : List.Forall₂ (fun e e' => e.same e' = true) es.toList es'.toList) :
      Verdict.Same (.error es) (.error es')

/-- Failures that are alike are the same. -/
theorem ParseError.Like.same [BEq τ] [ReflBEq τ] {e e' : ParseError τ}
    (h : e.Like RuleInfo.Alike e') : e.same e' = true := by
  obtain ⟨c, hreason⟩ := h
  cases hreason with
  | leftRecursion hinfo => simp [ParseError.same, Reason.same, RuleInfo.sameRule, hinfo.id]
  | _ => simp [ParseError.same, Reason.same]

theorem Verdict.Like.same [BEq τ] [ReflBEq τ] {v v' : Verdict τ α}
    (h : Verdict.Like RuleInfo.Alike v v') : Verdict.Same v v' := by
  cases h with
  | ok v => exact .ok v
  | error hes => exact .error (hes.imp fun _ _ => ParseError.Like.same)

/-- **Labels never change a parse.** Two grammars are built by the same operations, with further
labels in the second one. Then both are grammars that operations build, and their rules have the
same identities. Surveys of a rule and of a
copy of it come to the same, and if they finish, the analyses tell the same of every identity.
Parses come to the same: to answers that are alike, and so are the same as answers are compared,
with as many tokens demanded and with events that are alike. So does whoever walks the streams of
outcomes. All this while further rules are made on the way, in grammars that go on to differ in
labels only. -/
theorem labels_change_nothing [BEq τ] [ReflBEq τ] {Ts : List (Twins τ α σ)} (hT : T.Built)
    (hTs : List.IsChain Twins.Evolves (T :: Ts)) (hroot : T.Copy root root') :
    (T.plain.Built ∧ T.labelled.Built) ∧
    (T.plain.info root).id = (T.labelled.info root').id ∧
    (∀ T' ∈ T :: Ts, T'.plain.ids = T'.labelled.ids) ∧
    (∀ n : Nat,
      (∃ T' ∈ T :: Ts, SurveyStep.Like T'.Copy
        ((Survey.start root).runThrough n (Ts.map (·.plain)))
        ((Survey.start root').runThrough n (Ts.map (·.labelled)))) ∧
      ∀ found found', (Survey.start root).runThrough n (Ts.map (·.plain)) = .finished found →
        (Survey.start root').runThrough n (Ts.map (·.labelled)) = .finished found' →
        (Analysis.ofSurvey found).Alike (.ofSurvey found')) ∧
    (∀ (src : Source τ) (p : Place) (trace : Trace) (steps outcomes : Nat),
      ∃ T' ∈ T :: Ts, Exploration.Like (.copies T'.Copy)
        (Option.Rel (ParseErrors.Like RuleInfo.Alike)) (Verdict.Like RuleInfo.Alike)
        (exploreThrough src verdict steps outcomes (Ts.map (·.plain)) none (.calling root p trace))
        (exploreThrough src verdict steps outcomes (Ts.map (·.labelled)) none
          (.calling root' p trace))) ∧
    (∀ v v' : Verdict τ α, Verdict.Like RuleInfo.Alike v v' → Verdict.Same v v') ∧
    ∀ (src : Source τ) (p : Place) (trace : Trace) (limit : Option Nat) (steps outcomes : Nat),
      ∃ T' ∈ T :: Ts, Exploration.Like (.copies T'.Copy) (Basket.Like RuleInfo.Alike)
        (SightingsLike RuleInfo.Alike)
        (exploreThrough src collect steps outcomes (Ts.map (·.plain)) ⟨#[], limit⟩
          (.calling root p trace))
        (exploreThrough src collect steps outcomes (Ts.map (·.labelled)) ⟨#[], limit⟩
          (.calling root' p trace)) := by
  have h := hT.mirrors
  refine ⟨hT.grammars, h.idOf_eq hroot, ?_, fun n => ?_, fun src p trace steps outcomes => ?_,
    fun _ _ => Verdict.Like.same, fun src p trace limit steps outcomes => ?_⟩
  · exact fun T' hT' => (h.stage hTs hT').ids_eq
  · have hlike := Survey.runThrough_like h hTs n (.start hroot)
    refine ⟨hlike, fun found found' hfound hfound' => ?_⟩
    obtain ⟨T', -, hlike⟩ := hlike
    rw [hfound, hfound'] at hlike
    cases hlike with
    | finished h => exact h.analysis
  · exact h.exploreThrough_like hTs verdict_respects .none (Twins.calling_like hroot p trace)
  · exact h.exploreThrough_like hTs collect_respects ⟨.nil, rfl⟩
      (Twins.calling_like hroot p trace)

/-- The rule that starts again at once, and the same rule with a label around its self reference
and with another one around itself. -/
def Twins.stuttering : Twins Char Nat Unit where
  plain := Grammar.stuttering
  labelled :=
    { nodes := #[
        ⟨⟨0, .recursive, none⟩, .reference 0 true⟩,
        ⟨⟨1, .epsilon, none⟩, .epsilon 0⟩,
        ⟨⟨0, .recursive, some "again"⟩, .reference 0 true⟩,
        ⟨⟨2, .sequence, none⟩, .sequence ⟨1⟩ [⟨2⟩] fun vs => .ok vs.sum⟩,
        ⟨⟨3, .just, none⟩, .terminal fun c => .ok (if c = 'x' then some 1 else none)⟩,
        ⟨⟨4, .oneOf, none⟩, .oneOf ⟨3⟩ [⟨4⟩]⟩,
        ⟨⟨0, .recursive, none⟩, .reference 0 false⟩,
        ⟨⟨0, .recursive, some "word"⟩, .reference 0 false⟩]
      cells := #[.recursive ⟨5⟩]
      nextId := 5 }
  originals := [⟨0⟩, ⟨1⟩, ⟨0⟩, ⟨2⟩, ⟨3⟩, ⟨4⟩, ⟨5⟩, ⟨5⟩]

theorem Twins.stuttering_built : Twins.stuttering.Built := by
  let T₁ : Twins Char Nat Unit :=
    Twins.both ⟨.empty, .empty, []⟩ Grammar.openRecursive Grammar.openRecursive 1
  let T₂ := T₁.both (Grammar.make .epsilon (.epsilon 0)) (Grammar.make .epsilon (.epsilon 0)) 1
  let T₃ : Twins Char Nat Unit :=
    ⟨T₂.plain, Grammar.after (Grammar.labelled ⟨0⟩ "again") T₂.labelled, T₂.originals ++ [⟨0⟩]⟩
  let T₄ := T₃.both (Grammar.make .sequence (.sequence ⟨1⟩ [⟨0⟩] fun vs => .ok vs.sum))
    (Grammar.make .sequence (.sequence ⟨1⟩ [⟨2⟩] fun vs => .ok vs.sum)) 1
  let just : Form Char Nat := .terminal fun c => .ok (if c = 'x' then some 1 else none)
  let T₅ := T₄.both (Grammar.make .just just) (Grammar.make .just just) 1
  let T₆ := T₅.both (Grammar.make .oneOf (.oneOf ⟨2⟩ [⟨3⟩]))
    (Grammar.make .oneOf (.oneOf ⟨3⟩ [⟨4⟩])) 1
  let opening : Grammar.Opening := ⟨⟨0, .recursive, none⟩, 0, ⟨0⟩⟩
  let T₇ := T₆.both (Grammar.closeRecursive opening ⟨4⟩) (Grammar.closeRecursive opening ⟨5⟩) 1
  let T₈ : Twins Char Nat Unit :=
    ⟨T₇.plain, Grammar.after (Grammar.labelled ⟨6⟩ "word") T₇.labelled, T₇.originals ++ [⟨5⟩]⟩
  have h₁ : T₁.Built := .single .openRecursive
  have h₂ : T₂.Built := h₁.tail (.make rfl nofun fun _ => .epsilon 0)
  have h₃ : T₃.Built := h₂.tail (.relabelled ⟨_, rfl, rfl⟩ rfl)
  have h₄ : T₄.Built := by
    refine h₃.tail (.make rfl ?_ fun _ => .sequence _ (.cons rfl (.cons rfl .nil)))
    intro r hr
    rcases List.mem_cons.1 hr with rfl | hr
    · exact ⟨_, rfl, rfl⟩
    · cases List.mem_singleton.1 hr
      exact ⟨_, rfl, rfl⟩
  have h₅ : T₅.Built := h₄.tail (.make rfl nofun fun _ => .terminal _)
  have h₆ : T₆.Built := by
    refine h₅.tail (.make rfl ?_ fun _ => .oneOf (.cons rfl (.cons rfl .nil)))
    intro r hr
    rcases List.mem_cons.1 hr with rfl | hr
    · exact ⟨_, rfl, rfl⟩
    · cases List.mem_singleton.1 hr
      exact ⟨_, rfl, rfl⟩
  have h₇ : T₇.Built := h₆.tail (.closeRecursive rfl rfl ⟨_, rfl, rfl⟩ rfl rfl)
  have h₈ : T₈.Built := h₇.tail (.relabelled ⟨_, rfl, rfl⟩ rfl)
  exact h₈

/-- The copies of the recursive rule are met under their labels, and the rule is refused all the
same. -/
theorem stuttering_labels_change_nothing :
    Twins.stuttering.Built ∧ Twins.stuttering.Copy ⟨5⟩ ⟨7⟩ ∧
    ∃ (v v' : Verdict Char Nat) (t t' : State Char Nat),
      explore Twins.stuttering.plain (Source.ofList ['x']) verdict 40 10 none
        (.calling ⟨5⟩ ⟨0, 0⟩ .recorded) = .answer v t ∧
      explore Twins.stuttering.labelled (Source.ofList ['x']) verdict 40 10 none
        (.calling ⟨7⟩ ⟨0, 0⟩ .recorded) = .answer v' t' ∧
      v' = .error (.single ⟨0, .leftRecursion ⟨0, .recursive, some "again"⟩⟩) ∧
      Verdict.Same v v' ∧ t.trace.Like RuleInfo.Alike t'.trace := by
  have hTs : List.IsChain Twins.Evolves [Twins.stuttering, Twins.stuttering] :=
    List.isChain_cons_cons.2 ⟨.refl, .singleton _⟩
  have hroot : Twins.stuttering.Copy ⟨5⟩ ⟨7⟩ := rfl
  obtain ⟨-, -, -, -, hparse, hsame, -⟩ :=
    labels_change_nothing Twins.stuttering_built hTs hroot
  obtain ⟨T', -, hlike⟩ := hparse (Source.ofList ['x']) ⟨0, 0⟩ .recorded 40 10
  have hplain : explore Twins.stuttering.plain (Source.ofList ['x']) verdict 40 10 none
      (.calling ⟨5⟩ ⟨0, 0⟩ .recorded) = .answer _ _ := rfl
  have hlabelled : explore Twins.stuttering.labelled (Source.ofList ['x']) verdict 40 10 none
      (.calling ⟨7⟩ ⟨0, 0⟩ .recorded) = .answer _ _ := rfl
  simp only [List.map_cons, exploreThrough, hplain, hlabelled] at hlike
  cases hlike with
  | answer hv ht =>
      exact ⟨Twins.stuttering_built, hroot, _, _, _, _, hplain, hlabelled, rfl, hsame _ _ hv,
        ht.trace⟩

end LazyGrammar

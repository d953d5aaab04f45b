import LazyGrammar.Proofs.Recursion.CallPath
import LazyGrammar.Proofs.Search.Evaluation

/-!
# LazyGrammar.Proofs.Search.Unentered

**Rules that were not entered do not matter.** A search reads the form of a rule only when it
enters the rule, and what a cell leads to only when it has entered a reference. So a recorded
search comes to the same in every grammar that differs only in rules without an event, whatever
stands in their place (`unentered_rules_do_not_matter`).

A rule that is met where it was entered before is refused, and its information is shown, so
informations have to be kept.
-/

namespace LazyGrammar

variable {τ α σ κ ρ : Type} {g g' : Grammar τ α σ} {src : Source τ} {s s' t : State τ α}
  {other : Set Rule} {r q : Rule} {p : Place} {crumbs : Crumbs} {cell : CellId}
  {visited : List (Moment τ α σ)} {seen : List (Sighting τ α)} {ended : Bool}

/-! ### Grammars that differ in some rules -/

/-- Grammars in which all rules but some are the same and refer to the same, and in which these
at least show the same. -/
structure Grammar.AlikeBut (g g' : Grammar τ α σ) (other : Set Rule) : Prop where
  info : ∀ {r node}, g.node? r = some node → ∃ form, g'.node? r = some ⟨node.info, form⟩
  node : ∀ {r node}, g.node? r = some node → r ∉ other → g'.node? r = some node
  target : ∀ {r info cell weak}, g.node? r = some ⟨info, .reference cell weak⟩ → r ∉ other →
    g'.target cell = g.target cell

/-- The grammar in which a rule has another form. -/
def Grammar.withForm (g : Grammar τ α σ) (q : Rule) (form : Form τ α) : Grammar τ α σ :=
  { g with nodes := g.nodes.modify q.node fun node => { node with form } }

theorem Grammar.node?_withForm_self {node : Node τ α} (hnode : g.node? q = some node)
    (form : Form τ α) : (g.withForm q form).node? q = some ⟨node.info, form⟩ := by
  rw [node?] at hnode ⊢
  rw [withForm, Array.getElem?_modify, if_pos rfl, hnode]
  rfl

theorem Grammar.node?_withForm_ne (form : Form τ α) (hne : r ≠ q) :
    (g.withForm q form).node? r = g.node? r := by
  rw [node?, withForm, Array.getElem?_modify]
  exact if_neg fun heq => hne (congrArg Rule.mk heq.symm)

/-- Changing the form of a rule changes nothing but this rule. -/
theorem Grammar.alikeBut_withForm (g : Grammar τ α σ) (q : Rule) (form : Form τ α) :
    g.AlikeBut (g.withForm q form) {q} where
  info := by
    intro r node hnode
    by_cases heq : r = q
    · subst heq
      exact ⟨form, node?_withForm_self hnode form⟩
    · exact ⟨node.form, (node?_withForm_ne form heq).trans hnode⟩
  node hnode hr := (node?_withForm_ne form hr).trans hnode
  target _ _ := rfl

/-! ### Steps -/

namespace Machine

/-- A form leads to a cell only if it is a reference to it. -/
theorem useForm_follows {info : RuleInfo} {form : Form τ α}
    (h : (useForm src info p crumbs s form).Follows cell) :
    ∃ weak, form = .reference cell weak := by
  obtain ⟨place, crumbs', hcontrol⟩ := h
  cases form with
  | reference cell' weak =>
      cases hcontrol
      exact ⟨weak, rfl⟩
  | terminal accept =>
      simp only [useForm, takeToken] at hcontrol
      split at hcontrol
      · cases hcontrol
      · split at hcontrol <;> cases hcontrol
  | endOfInput value =>
      simp only [useForm, takeEnd] at hcontrol
      split at hcontrol <;> cases hcontrol
  | oneOf first others => cases others <;> cases hcontrol
  | _ => cases hcontrol

theorem deliver_follows {o : Outcome τ α} {tail : Tail τ α} {frame : Frame τ α}
    (hstep : deliver o tail s frame = .next s') : ¬ s'.Follows cell := by
  rintro ⟨place, crumbs, hcontrol⟩
  cases frame with
  | map f =>
      simp only [deliver] at hstep
      split at hstep
      · cases hstep
        cases hcontrol
      · split at hstep <;> cases hstep
        cases hcontrol
  | orElse later =>
      cases hstep
      cases hcontrol
  | chainOuter chain =>
      simp only [deliver] at hstep
      split at hstep <;> cases hstep <;> cases hcontrol
  | chainInner outer chain =>
      cases hstep
      cases hcontrol
  | item w depth start =>
      simp only [deliver, takeItem] at hstep
      split at hstep
      · cases hstep
        cases hcontrol
      · split at hstep <;> cases hstep <;> cases hcontrol

/-- **A search follows a cell only when it has entered a reference to it.** -/
theorem step_follows (hstep : step g src s = .next s') (hs' : s'.Follows cell) :
    ∃ r p crumbs info weak, s.control = .call r p crumbs ∧
      g.node? r = some ⟨info, .reference cell weak⟩ ∧
      crumbs.holds info.id p.consumed = false := by
  obtain ⟨control, frames, demand, trace⟩ := s
  obtain ⟨q, crumbs', hcontrol⟩ := hs'
  cases control with
  | call r p crumbs =>
      obtain ⟨info, form, hnode, ⟨-, rfl⟩ | ⟨hfresh, rfl⟩⟩ := call_next hstep
      · cases hcontrol
      · obtain ⟨weak, rfl⟩ := useForm_follows ⟨q, crumbs', hcontrol⟩
        exact ⟨r, p, crumbs, info, weak, rfl, hnode, hfresh⟩
  -- what any other step goes on with is no reference
  | follow cell' place crumbs =>
      simp only [step, follow] at hstep
      split at hstep <;> cases hstep
      cases hcontrol
  | «continue» chain place =>
      simp only [step, advance] at hstep
      split at hstep
      · split at hstep <;> cases hstep
        cases hcontrol
      · cases hstep
        cases hcontrol
  | force tail => cases tail <;> cases hstep <;> cases hcontrol
  | walk w =>
      simp only [step, walk] at hstep
      split at hstep <;> cases hstep <;> cases hcontrol
  | give o tail =>
      cases frames with
      | nil => cases hstep
      | cons frame frames => exact absurd ⟨q, crumbs', hcontrol⟩ (deliver_follows hstep)
  | finish =>
      cases frames with
      | nil => cases hstep
      | cons frame frames =>
          cases frame with
          | orElse later =>
              obtain ⟨rule, others, place, crumbs⟩ := later
              cases hstep
              cases others <;> cases hcontrol
          | _ =>
              cases hstep
              cases hcontrol
  | fail f => cases hstep

end Machine

/-- A state that follows a cell only for a rule that is the same in both grammars. -/
def State.Spares (g : Grammar τ α σ) (other : Set Rule) (s : State τ α) : Prop :=
  ∀ {cell}, s.Follows cell → ∃ r info weak, r ∉ other ∧
    g.node? r = some ⟨info, .reference cell weak⟩

namespace Machine

/-- A step is the same in both grammars, unless it enters a rule in which they differ or follows
its cell. -/
theorem step_alikeBut (h : g.AlikeBut g' other) (hs : s.Spares g other)
    (hcall : ∀ {r p crumbs}, s.control = .call r p crumbs → ∃ node, g.node? r = some node ∧
      (crumbs.holds node.info.id p.consumed = false → r ∉ other)) :
    step g' src s = step g src s := by
  obtain ⟨control, frames, demand, trace⟩ := s
  cases control with
  | call r p crumbs =>
      obtain ⟨⟨info, form⟩, hnode, hother⟩ := hcall rfl
      simp only [step, call, hnode]
      cases hheld : crumbs.holds info.id p.consumed with
      | false => simp only [h.node hnode (hother hheld), hheld]
      | true =>
          -- a rule that is refused is not looked into
          obtain ⟨form', hnode'⟩ := h.info hnode
          simp only [hnode', hheld, if_true]
  | follow cell place crumbs =>
      obtain ⟨r, info, weak, hr, hnode⟩ := hs ⟨place, crumbs, rfl⟩
      simp only [step, follow, h.target hnode hr]
  | _ => rfl

/-- A step that records no entry of a rule in which the grammars differ is the same in both, and
does not lead into such a rule. -/
theorem step_spares (h : g.AlikeBut g' other) (hs : s.Spares g other)
    (hstep : step g src s = .next s') (hrecording : s.trace.recording = true)
    (hother : ∀ r ∈ other, ∀ c d, .entered (g.info r) c d ∉ s'.trace.events) :
    step g' src s = .next s' ∧ s'.Spares g other := by
  have hsame : ∀ {r p crumbs node}, s.control = .call r p crumbs → g.node? r = some node →
      crumbs.holds node.info.id p.consumed = false → r ∉ other := by
    intro r p crumbs node hcontrol hnode hfresh hr
    have hinfo : g.info r = node.info := by
      rw [Grammar.info, hnode]
      rfl
    refine hother r hr p.consumed crumbs.depth ?_
    rw [hinfo]
    exact entered_mem hcontrol hstep hrecording hnode hfresh
  constructor
  · refine (step_alikeBut h hs fun {r p crumbs} hcontrol => ?_).trans hstep
    obtain ⟨node, hnode, -⟩ := step_call_trace hcontrol hstep
    exact ⟨node, hnode, hsame hcontrol hnode⟩
  · intro cell hcell
    obtain ⟨r, p, crumbs, info, weak, hcontrol, hnode, hfresh⟩ := step_follows hstep hcell
    exact ⟨r, info, weak, hsame hcontrol hnode hfresh, hnode⟩

end Machine

/-! ### Runs -/

theorem Unfolds.events_subset (h : Unfolds src [g] s visited seen ended t)
    (hrecording : s.trace.recording = true) : s.trace.events ⊆ t.trace.events := by
  induction h using Unfolds.alone_induction with
  | next hstep _ ih =>
      exact List.Subset.trans (Machine.events_subset hstep hrecording)
        (ih ((Machine.step_recording hstep).trans hrecording))
  | more _ _ ih => exact ih hrecording
  | given | ended => exact List.Subset.refl _

/-- **A search that has not entered any of the rules in which two grammars differ is the same in
both.** -/
theorem Unfolds.alikeBut (h : Unfolds src [g] s visited seen ended t)
    (halike : g.AlikeBut g' other) (hs : s.Spares g other)
    (hrecording : s.trace.recording = true)
    (hother : ∀ r ∈ other, ∀ c d, .entered (g.info r) c d ∉ t.trace.events) :
    ∃ visited', Unfolds src [g'] s visited' seen ended t := by
  induction h using Unfolds.alone_induction with
  | next hstep later ih =>
      have hrecording' := (Machine.step_recording hstep).trans hrecording
      -- an event of this step would still be there at the end
      obtain ⟨hstep', hspares⟩ := Machine.step_spares halike hs hstep hrecording
        fun r hr c d hmem => hother r hr c d (later.events_subset hrecording' hmem)
      obtain ⟨visited', hunfolds⟩ := ih hspares hrecording' hother
      exact ⟨_, .next hstep' hunfolds⟩
  | @more s _ _ tail _ _ _ hstep _ ih =>
      obtain ⟨-, hcontrol, -⟩ := Machine.step_stream hstep
      have hstep' := (Machine.step_alikeBut halike hs
        fun hcall => by cases hcall.symm.trans hcontrol).trans hstep
      have hspares : (s.goTo (.force tail)).Spares g other := by
        rintro cell ⟨place, crumbs, hcontrol⟩
        cases hcontrol
      obtain ⟨visited', hunfolds⟩ := ih hspares hrecording hother
      exact ⟨_, .more hstep' hunfolds⟩
  | given hstep =>
      obtain ⟨-, hcontrol, -⟩ := Machine.step_stream hstep
      exact ⟨_, .given ((Machine.step_alikeBut halike hs
        fun hcall => by cases hcall.symm.trans hcontrol).trans hstep)⟩
  | ended hstep =>
      obtain ⟨-, hcontrol, -⟩ := Machine.step_nothing hstep
      exact ⟨_, .ended ((Machine.step_alikeBut halike hs
        fun hcall => by cases hcall.symm.trans hcontrol).trans hstep)⟩

/-! ### Parses -/

/-- **Rules that were not entered do not matter.** If a recorded parse has no entry of some
rules, it comes to the same answer by the same events in every grammar that differs only in the
forms of these rules, or in what they refer to. In a complete grammar with total functions, a parse
of a list of tokens comes to an end. A choice evaluates no alternative after the one that gives
the last outcome that was looked at, and a sequence evaluates a member only where it has evaluated
the member before, which succeeds. -/
theorem unentered_rules_do_not_matter (g : Grammar τ α σ) :
    (∀ (root : Rule) (tokens : List τ), g.Complete root → g.Total root →
      ∃ v t, Ends (Source.ofList tokens) verdict [g] none
        (.calling root ⟨0, 0⟩ .recorded) v t) ∧
    (∀ (src : Source τ) (root : Rule) (v : Verdict τ α) (t : State τ α) (g' : Grammar τ α σ)
      (other : Set Rule), Ends src verdict [g] none (.calling root ⟨0, 0⟩ .recorded) v t →
      (∀ r ∈ other, ∀ c d, .entered (g.info r) c d ∉ t.trace.events) → g.AlikeBut g' other →
      Ends src verdict [g'] none (.calling root ⟨0, 0⟩ .recorded) v t) ∧
    (∀ (src : Source τ) (r : Rule) (p : Place) (crumbs : Crumbs) (demand : Nat) (trace : Trace)
      (visited : List (Moment τ α σ)) (seen : List (Sighting τ α)) (x : Sighting τ α)
      (t : State τ α) (info : RuleInfo) (first : Rule) (others : List Rule),
      g.node? r = some ⟨info, .oneOf first others⟩ → crumbs.holds info.id p.consumed = false →
      Unfolds src [g] ⟨.call r p crumbs, [], demand, trace⟩ visited (seen ++ [x]) false t →
      ∃ done r' rest, first :: others = done ++ r' :: rest ∧
        callsWith (crumbs.enter info.id p.consumed) visited = (done ++ [r']).map (·, p) ∧
        Gives g src (.use r') p (crumbs.enter info.id p.consumed) x.outcome.plain) ∧
    ∀ (src : Source τ) (c r : Rule) (p q : Place) (crumbs : Crumbs) (demand : Nat) (trace : Trace)
      (earlier : List (Moment τ α σ)) (m : Moment τ α σ) (later : List (Moment τ α σ))
      (seen : List (Sighting τ α)) (ended : Bool) (t : State τ α) (info : RuleInfo) (first : Rule)
      (others : List Rule) (build : List α → Except Fault α),
      g.node? c = some ⟨info, .sequence first others build⟩ →
      crumbs.holds info.id p.consumed = false →
      Unfolds src [g] ⟨.call c p crumbs, [], demand, trace⟩ (earlier ++ m :: later) seen ended t →
      m.state.control = .call r q (crumbs.enter info.id p.consumed) →
      (r = first ∧ q = p) ∨ ∃ done before rest p', first :: others = done ++ before :: r :: rest ∧
        (before, p') ∈ callsWith (crumbs.enter info.id p.consumed) earlier ∧
        Gives g src (.use before) p' (crumbs.enter info.id p.consumed) (.success q ()) := by
  refine ⟨fun root tokens hcomplete htotal => ?_,
    fun src root v t g' other hends hother halike => ?_,
    fun src r p crumbs demand trace visited seen x t info first others hnode hfresh h =>
      h.alternatives hnode hfresh,
    fun src c r p q crumbs demand trace earlier m later seen ended t info first others build hnode
      hfresh h hcall => h.members hnode hfresh hcall⟩
  · have hdelivers := delivers_call tokens hcomplete htotal ⟨0, 0⟩ .root
    have hframes : (⟨.finish, [], 1, .recorded⟩ : State τ α).frames = [] := rfl
    obtain ⟨_, seen, _, hunfolds, -⟩ := hdelivers.unfolds hframes
    obtain ⟨visited, v, t, hwalks⟩ := Unfolds.walks hunfolds
    exact ⟨v, t, ends_iff.2 ⟨visited, hwalks⟩⟩
  · obtain ⟨visited, seen, ended, hunfolds, hmakes⟩ := ends_iff.1 hends
    -- a search that is about to call its root has followed no cell yet
    obtain ⟨visited', hunfolds'⟩ := hunfolds.alikeBut halike nofun rfl hother
    exact .of_unfolds hunfolds' hmakes

/-- The rule for two tokens, or the first of them, or nothing. -/
def Grammar.sparing : Grammar Char Nat Unit where
  nodes := #[
    ⟨⟨0, .just, none⟩, .terminal fun c => .ok (if c = 'a' then some 1 else none)⟩,
    ⟨⟨1, .just, none⟩, .terminal fun c => .ok (if c = 'b' then some 2 else none)⟩,
    ⟨⟨2, .epsilon, none⟩, .epsilon 0⟩,
    ⟨⟨3, .sequence, none⟩, .sequence ⟨0⟩ [⟨1⟩] fun vs => .ok vs.sum⟩,
    ⟨⟨4, .oneOf, none⟩, .oneOf ⟨3⟩ [⟨0⟩, ⟨2⟩]⟩]
  cells := #[]
  nextId := 5

/-- Where the first of the two tokens is all there is, the rule for nothing is not entered. Then
it may as well raise a fault, and use a rule that does not exist. The choice calls two of its
three alternatives, and the sequence calls its second member where the first one succeeds. -/
theorem sparing_unentered_rules_do_not_matter :
    ∃ (v : Verdict Char Nat) (t : State Char Nat),
      Grammar.sparing.Complete ⟨4⟩ ∧ Grammar.sparing.Total ⟨4⟩ ∧
      Ends (Source.ofList ['a', 'c']) verdict [Grammar.sparing] none
        (.calling ⟨4⟩ ⟨0, 0⟩ .recorded) v t ∧
      (∀ r ∈ ({⟨2⟩} : Set Rule), ∀ c d, .entered (Grammar.sparing.info r) c d ∉ t.trace.events) ∧
      Ends (Source.ofList ['a', 'c']) verdict
        [Grammar.sparing.withForm ⟨2⟩ (.map ⟨9⟩ fun _ => .error .undefinedRule)] none
        (.calling ⟨4⟩ ⟨0, 0⟩ .recorded) v t ∧
      Gives Grammar.sparing (Source.ofList ['a', 'c']) (.use ⟨0⟩) ⟨0, 0⟩
        (Crumbs.root.enter 4 0) (.success ⟨1, 1⟩ ()) ∧
      Gives Grammar.sparing (Source.ofList ['a', 'c']) (.use ⟨0⟩) ⟨0, 0⟩
        (Crumbs.root.enter 3 0) (.success ⟨1, 1⟩ ()) := by
  have hclosed : Grammar.sparing.Closed := Grammar.closed_of_all rfl rfl
  have hcomplete : Grammar.sparing.Complete ⟨4⟩ := hclosed.complete nofun ⟨_, rfl⟩
  have htotal : Grammar.sparing.Total ⟨4⟩ := by
    refine Grammar.total_of_all ?_ _
    simp [Grammar.sparing, Form.Total]
  obtain ⟨hexists, hsame, halternatives, hmembers⟩ :=
    unentered_rules_do_not_matter Grammar.sparing
  obtain ⟨v, t, hends⟩ := hexists ⟨4⟩ ['a', 'c'] hcomplete htotal
  have hexplore : explore Grammar.sparing (Source.ofList ['a', 'c']) verdict 40 10 none
      (.calling ⟨4⟩ ⟨0, 0⟩ .recorded) = _ := rfl
  obtain ⟨rfl, rfl⟩ := hends.unique (.answer hexplore)
  have hother : ∀ r ∈ ({⟨2⟩} : Set Rule), ∀ c d, ParseEvent.entered (Grammar.sparing.info r) c d ∉
      [.entered ⟨4, .oneOf, none⟩ 0 0, .entered ⟨3, .sequence, none⟩ 0 1,
        .entered ⟨0, .just, none⟩ 0 2, .entered ⟨1, .just, none⟩ 1 2,
        .entered ⟨0, .just, none⟩ 0 1] := by
    rintro r rfl c d hmem
    simp [Grammar.info, Grammar.node?, Grammar.sparing] at hmem
  refine ⟨_, _, hcomplete, htotal, hends, hother,
    hsame _ _ _ _ _ _ hends hother (Grammar.alikeBut_withForm ..), ?_, ?_⟩
  · obtain ⟨done, r', rest, -, hcalls, hgives⟩ := halternatives (Source.ofList ['a', 'c']) ⟨4⟩
      ⟨0, 0⟩ .root 1 .silent _ [_] _ _ _ _ _ rfl rfl
      (.next rfl <| .next rfl <| .next rfl <| .next rfl <| .next rfl <| .next rfl <| .next rfl <|
        .next rfl <| .next rfl <| .more rfl <| .next rfl <| .next rfl <| .next rfl <| .next rfl <|
        .next rfl <| .next rfl <| .next rfl <| .next rfl <| .next rfl <| .next rfl <| .next rfl <|
        .next rfl <| .next rfl <| .given rfl)
    change [(⟨3⟩, ⟨0, 0⟩)] ++ [(⟨0⟩, ⟨0, 0⟩)] = (done ++ [r']).map (·, (⟨0, 0⟩ : Place)) at hcalls
    rw [List.map_append] at hcalls
    obtain ⟨-, hlast⟩ := List.append_inj' hcalls rfl
    cases hlast
    exact hgives
  · rcases hmembers (Source.ofList ['a', 'c']) ⟨3⟩ ⟨1⟩ ⟨0, 0⟩ ⟨1, 1⟩ .root 1 .silent
      [_, _, _, _] _ _ _ _ _ _ _ _ _ rfl rfl
      (.next rfl <| .next rfl <| .next rfl <| .next rfl <| .next rfl <| .next rfl <| .next rfl <|
        .given rfl) rfl with ⟨h, -⟩ | ⟨_, before, _, p', -, hcalled, hgives⟩
    · cases h
    · change (before, p') ∈ [((⟨0⟩ : Rule), (⟨0, 0⟩ : Place))] at hcalled
      cases List.mem_singleton.1 hcalled
      exact hgives

end LazyGrammar

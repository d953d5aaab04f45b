import LazyGrammar.Proofs.Rule.Twins
import LazyGrammar.Rule.Analysis

/-!
# LazyGrammar.Proofs.Analysis.Labels

**Labels never change an analysis.** The surveys of two grammars that only differ in labels keep in
step (`Survey.step_like`): both meet copies of the same rules in the same order. For each identity
the table keeps the entry of the node that was met first. Which of several copies this is shows in
the label of the entry only, and what the analysis tells does not depend on labels
(`Survey.Like.analysis`).
-/

namespace LazyGrammar

variable {τ α σ : Type} {copy copy' : Rule → Rule → Prop} {s s' : Survey}
  {T : Twins τ α σ} {info info' : RuleInfo} {rules rules' rest rest' : List Rule}
  {nullable : Std.HashSet RuleId}

/-! ### Surveys side by side -/

/-- Entries of one rule, met under whatever labels. -/
structure Entry.Alike (entry entry' : Entry) : Prop where
  info : entry.info.Alike entry'.info
  shape : entry.shape = entry'.shape

/-- Surveys that have met the same rules, and that will visit copies of the same rules. -/
structure Survey.Like (copy : Rule → Rule → Prop) (s s' : Survey) : Prop where
  table : ∀ id : RuleId, Option.Rel Entry.Alike s.table[id]? s'.table[id]?
  ids : s.ids = s'.ids
  stack : List.Forall₂ copy s.stack s'.stack

/-- The same comes of two surveys. -/
inductive SurveyStep.Like (copy : Rule → Rule → Prop) : SurveyStep → SurveyStep → Prop
  | next {s s' : Survey} (h : s.Like copy s') : Like copy (.next s) (.next s')
  | finished {s s' : Survey} (h : s.Like copy s') : Like copy (.finished s) (.finished s')
  | fault (f : Fault) : Like copy (.fault f) (.fault f)
  | waiting (cell : CellId) {s s' : Survey} (h : s.Like copy s') :
      Like copy (.waiting cell s) (.waiting cell s')
  | circular : Like copy .circular .circular

namespace Survey

theorem Like.mono (h : s.Like copy s') (hle : ∀ {r r'}, copy r r' → copy' r r') :
    s.Like copy' s' := ⟨h.table, h.ids, h.stack.imp fun _ _ => hle⟩

theorem Like.start {root root' : Rule} (h : copy root root') :
    (start root).Like copy (start root') := by
  refine ⟨fun id => ?_, rfl, .cons h .nil⟩
  simp only [Survey.start, Std.HashMap.getElem?_empty]
  exact .none

theorem Like.contains_eq (h : s.Like copy s') (id : RuleId) :
    s.table.contains id = s'.table.contains id := by
  have hentry := h.table id
  rw [Std.HashMap.contains_eq_isSome_getElem?, Std.HashMap.contains_eq_isSome_getElem?]
  generalize s.table[id]? = entry, s'.table[id]? = entry' at hentry
  cases hentry <;> rfl

theorem Like.enter (h : s.Like copy s') (hinfo : info.Alike info') (shape : Shape)
    (hrules : List.Forall₂ copy rules rules') (hrest : List.Forall₂ copy rest rest') :
    (s.enter info shape rules rest).Like copy (s'.enter info' shape rules' rest') where
  table := by
    intro id
    simp only [Survey.enter, Std.HashMap.getElem?_insert, hinfo.id]
    split
    · exact .some ⟨hinfo, rfl⟩
    · exact h.table id
  ids := congrArg₂ _ hinfo.id h.ids
  stack := List.rel_append (List.rel_reverse hrules) hrest

/-- **Surveys of twins keep in step.** -/
theorem step_like (hT : T.Mirrors) (h : s.Like T.Copy s') :
    (s.step T.plain).Like T.Copy (s'.step T.labelled) := by
  have hids : ∀ {rules rules'}, List.Forall₂ T.Copy rules rules' →
      rules.map (fun r => (T.plain.info r).id) = rules'.map fun r => (T.labelled.info r).id := by
    intro rules rules' hrules
    induction hrules with
    | nil => rfl
    | cons hr _ ih => exact congrArg₂ List.cons (hT.idOf_eq hr) ih
  obtain ⟨table, ids, stack⟩ := s
  obtain ⟨table', ids', stack'⟩ := s'
  have hstack : List.Forall₂ T.Copy stack stack' := h.stack
  cases hstack with
  | nil => exact .finished h
  | cons hr hrest =>
      obtain ⟨⟨info, form⟩, ⟨info', form'⟩, hnode, hnode', hinfo, hform⟩ := hT.node hr
      have hcontains : table.contains info.id = table'.contains info'.id :=
        hinfo.id ▸ h.contains_eq info.id
      simp only [step, hnode, hnode', hcontains]
      split
      · exact .next ⟨h.table, h.ids, hrest⟩
      · have hparts : List.Forall₂ T.Copy form.parts form'.parts := (hform .root).parts
        -- a form that is no reference puts its parts on the stack
        have hform : form.Like (.copies T.Copy) .root form' := hform .root
        cases hform with
        | terminal | epsilon | endOfInput => exact .next (h.enter hinfo _ .nil hrest)
        | map | repetition | oneOf | sequence =>
            rw [hids hparts]
            exact .next (h.enter hinfo _ hparts hrest)
        | @reference cell weak =>
            have htarget := hT.target cell .root
            dsimp only
            generalize T.plain.target cell = target, T.labelled.target cell = target' at htarget
            cases htarget with
            | rule hrule =>
                dsimp only
                rw [hT.idOf_eq hrule]
                exact .next (h.enter hinfo _ (.cons hrule .nil) hrest)
            | fault f => exact .fault f
            | pending => exact .waiting cell h
            | circular => exact .circular

theorem run_like (hT : T.Mirrors) (n : Nat) (h : s.Like T.Copy s') :
    (s.run T.plain n).Like T.Copy (s'.run T.labelled n) := by
  induction n generalizing s s' with
  | zero => exact .next h
  | succ n ih =>
      have hstep := step_like hT h
      unfold run
      generalize s.step T.plain = step, s'.step T.labelled = step' at hstep
      cases hstep with
      | next h => exact ih h
      | finished h => exact .finished h
      | fault f => exact .fault f
      | waiting cell h => exact .waiting cell h
      | circular => exact .circular

/-- A survey that goes on in the next of some grammars where it has to wait for a rule, with at
most `n` visits in each of them. -/
def runThrough (n : Nat) : List (Grammar τ α σ) → Survey → SurveyStep
  | [], s => .next s
  | g :: gs, s =>
    match s.run g n with
    | .waiting _ s' => runThrough n gs s'
    | stop => stop

/-- Surveys keep in step while rules are made. -/
theorem runThrough_like {Ts : List (Twins τ α σ)} (hT : T.Mirrors)
    (hTs : List.IsChain Twins.Evolves (T :: Ts)) (n : Nat) (h : s.Like T.Copy s') :
    ∃ T' ∈ T :: Ts, (s.runThrough n (Ts.map (·.plain))).Like T'.Copy
      (s'.runThrough n (Ts.map (·.labelled))) := by
  induction Ts generalizing T s s' with
  | nil => exact ⟨T, List.mem_singleton_self _, .next h⟩
  | cons T₁ Ts ih =>
      obtain ⟨hevolves, hTs⟩ := List.isChain_cons_cons.1 hTs
      have hT₁ := hevolves.mirrors hT
      have hrun := run_like hT₁ n (h.mono hevolves.keepsCopy)
      have hmem : T₁ ∈ T :: T₁ :: Ts := List.mem_cons_of_mem _ (List.mem_cons_self ..)
      rw [List.map_cons, List.map_cons, runThrough, runThrough]
      generalize s.run T₁.plain n = step, s'.run T₁.labelled n = step' at hrun
      cases hrun with
      | waiting cell h =>
          obtain ⟨T', hT', hlike⟩ := ih hT₁ hTs h
          exact ⟨T', List.mem_cons_of_mem _ hT', hlike⟩
      | next h => exact ⟨T₁, hmem, .next h⟩
      | finished h => exact ⟨T₁, hmem, .finished h⟩
      | fault f => exact ⟨T₁, hmem, .fault f⟩
      | circular => exact ⟨T₁, hmem, .circular⟩

end Survey

/-! ### What an analysis tells -/

/-- Analyses that tell the same of all rules, and that list the same rules, under whatever
labels. -/
structure Analysis.Alike (a a' : Analysis) : Prop where
  ids : a.survey.ids = a'.survey.ids
  properties : ∀ id, a.properties? id = a'.properties? id
  leftRecursive : List.Forall₂ RuleInfo.Alike a.leftRecursiveRules a'.leftRecursiveRules

namespace Survey.Like

theorem learn_eq (h : s.Like copy s') : s.learn = s'.learn := by
  funext known id
  have hentry := h.table id
  unfold Survey.learn
  generalize s.table[id]? = entry, s'.table[id]? = entry' at hentry
  cases hentry with
  | none => rfl
  | some halike => simp only [halike.shape]

theorem nullableIds_eq (h : s.Like copy s') : s.nullableIds = s'.nullableIds := by
  have hsolve : ∀ n known, s.solve n known = s'.solve n known := by
    intro n
    induction n with
    | zero => exact fun _ => rfl
    | succ n ih =>
        intro known
        simp only [Survey.solve, h.learn_eq, h.ids, ih]
  rw [Survey.nullableIds, Survey.nullableIds, hsolve, h.ids]

theorem leftmost_eq (h : s.Like copy s') : s.leftmost nullable = s'.leftmost nullable := by
  funext id
  have hentry := h.table id
  unfold Survey.leftmost
  generalize s.table[id]? = entry, s'.table[id]? = entry' at hentry
  cases hentry with
  | none => rfl
  | @some entry entry' halike =>
      obtain ⟨info, shape⟩ := entry
      obtain ⟨info', shape'⟩ := entry'
      cases (halike.shape : shape = shape')
      cases shape <;> rfl

theorem reachesItself_eq (h : s.Like copy s') :
    s.reachesItself nullable = s'.reachesItself nullable := by
  have hreaches : ∀ goal n seen frontier,
      s.reaches nullable goal n seen frontier = s'.reaches nullable goal n seen frontier := by
    intro goal n
    induction n with
    | zero => exact fun _ _ => rfl
    | succ n ih =>
        intro seen frontier
        simp only [Survey.reaches, h.leftmost_eq, ih]
  funext id
  rw [Survey.reachesItself, Survey.reachesItself, hreaches, h.ids, h.leftmost_eq]

/-- **Finished surveys that are alike give analyses that are alike.** -/
theorem analysis (h : s.Like copy s') :
    (Analysis.ofSurvey s).Alike (Analysis.ofSurvey s') := by
  have hrecursive : (Analysis.ofSurvey s).recursive = (Analysis.ofSurvey s').recursive := by
    rw [Analysis.ofSurvey, Analysis.ofSurvey, h.ids, h.nullableIds_eq, h.reachesItself_eq]
  have hnullable : (Analysis.ofSurvey s).nullable = (Analysis.ofSurvey s').nullable :=
    h.nullableIds_eq
  refine ⟨h.ids, fun id => ?_, ?_⟩
  · have hcontains : (Analysis.ofSurvey s).survey.table.contains id
        = (Analysis.ofSurvey s').survey.table.contains id := h.contains_eq id
    rw [Analysis.properties?, Analysis.properties?, hcontains, hrecursive, hnullable]
  · rw [Analysis.leftRecursiveRules, Analysis.leftRecursiveRules, hrecursive]
    refine List.rel_filterMap ?_ (List.forall₂_same.2 fun _ _ => rfl)
    intro id id' heq
    cases heq
    have hentry := h.table id
    change Option.Rel _ ((s.table[id]?).map _) ((s'.table[id]?).map _)
    generalize s.table[id]? = entry, s'.table[id]? = entry' at hentry
    cases hentry with
    | none => exact .none
    | some halike => exact .some halike.info

end Survey.Like

end LazyGrammar

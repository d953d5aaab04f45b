import LazyGrammar.Proofs.Recursion.Alarm
import LazyGrammar.Proofs.Search.Recording
import LazyGrammar.Proofs.Search.Verdict

/-!
# LazyGrammar.Proofs.Recursion.FailFast

**A parse ends at the first circle.** A search that has noticed that a rule was entered again
where it had been entered before does nothing more but hand the failure on, frame by frame, and
a parse stops as soon as it comes out. So an event that reports left recursion is the last one
of a parse, and what it reports is the answer.

Design points:

* Streams are found on demand, so when a failure is made nothing else is under way: a state
  either gives such a failure (`Control.Blames`) or holds none (`Control.Calm`), and tails hold
  work, never outcomes.
* There are two ways from the one to the other, `Machine.step_calm`: a call that is refused,
  with its event, and a repetition whose item has matched nothing, without any.
* Recording has no influence on a search (`explore_silent`).
-/

namespace LazyGrammar

variable {τ α σ κ ρ : Type} {g : Grammar τ α σ} {gs : List (Grammar τ α σ)} {src : Source τ}
  {s s' t : State τ α} {o : Outcome τ α} {tail : Tail τ α} {info : RuleInfo} {c : Nat}
  {p : Place} {crumbs : Crumbs} {visited : List (Moment τ α σ)} {seen : List (Sighting τ α)}
  {ended : Bool} {memory : Option (ParseErrors τ)} {v : Verdict τ α}

/-! ### Calm and blame -/

/-- What is to be done now is to give a failure that blames a rule. -/
def Control.Blames (info : RuleInfo) (c : Nat) : Control τ α → Prop
  | .give o _ => o.result = .error ⟨c, .leftRecursion info⟩
  | _ => False

/-- What is to be done now is anything but to give a failure that blames a rule. -/
def Control.Calm : Control τ α → Prop
  | .give o _ => ∀ e, o.result = .error e → e.isLeftRecursion = false
  | _ => True

/-- A walk takes a success of its item, which was tried at `c` and has consumed nothing. -/
structure State.TakesEmpty (s : State τ α) (w : Walk τ α (Tail τ α)) (o : Outcome τ α) (c : Nat) :
    Prop where
  frames : ∃ depth frames, s.frames = .item w depth c :: frames
  control : ∃ tail, s.control = .give o tail
  success : ∃ v, o.result = .ok v
  consumed : o.place.consumed = c

theorem Outcome.calm_success (p : Place) (v : α) (tail : Tail τ α) :
    (Control.give (.success p v) tail).Calm := fun _ herror => by cases herror

namespace Machine

theorem tryLater_calm (later : Later) (s : State τ α) : (tryLater later s).control.Calm := by
  unfold tryLater
  split <;> trivial

theorem tryLater_trace (later : Later) (s : State τ α) : (tryLater later s).trace = s.trace := by
  unfold tryLater
  split <;> rfl

/-- A form starts without a failure that blames a rule, and records nothing. -/
theorem useForm_calm (src : Source τ) (info : RuleInfo) (p : Place) (crumbs : Crumbs)
    (s : State τ α) (form : Form τ α) :
    (useForm src info p crumbs s form).control.Calm ∧
      (useForm src info p crumbs s form).trace = s.trace := by
  have hfailure : ∀ e : ParseError τ, e.isLeftRecursion = false →
      (Control.give (.failure e p.next) .done : Control τ α).Calm := by
    intro e he e' herror
    cases herror
    exact he
  cases form with
  | terminal accept =>
      simp only [useForm, takeToken]
      split
      · exact ⟨hfailure _ rfl, rfl⟩
      · split
        · exact ⟨Outcome.calm_success _ _ _, rfl⟩
        · exact ⟨hfailure _ rfl, rfl⟩
        · exact ⟨trivial, rfl⟩
  | epsilon value => exact ⟨Outcome.calm_success _ _ _, rfl⟩
  | endOfInput value =>
      simp only [useForm, takeEnd]
      split
      · exact ⟨Outcome.calm_success _ _ _, rfl⟩
      · exact ⟨hfailure _ rfl, rfl⟩
  | oneOf first others => exact ⟨tryLater_calm _ s, tryLater_trace _ s⟩
  | _ => exact ⟨trivial, rfl⟩

/-- A failure that blames a rule is handed on by every frame. -/
theorem deliver_blames {frame : Frame τ α} (h : o.result = .error ⟨c, .leftRecursion info⟩)
    (hstep : deliver o tail s frame = .next s') : s'.control.Blames info c := by
  cases frame with
  | map f =>
      simp only [deliver, h] at hstep
      cases hstep
      exact h
  | orElse later =>
      cases hstep
      exact h
  | chainOuter chain =>
      simp only [deliver, h] at hstep
      cases hstep
      rfl
  | chainInner outer chain =>
      cases hstep
      exact h
  | item w depth start =>
      simp only [deliver, takeItem, h] at hstep
      cases hstep
      rfl

/-- An outcome that does not blame a rule only leads to one that does where a repetition takes
an item that has consumed nothing. -/
theorem deliver_calm {frame : Frame τ α} (h : ∀ e, o.result = .error e → e.isLeftRecursion = false)
    (hstep : deliver o tail s frame = .next s') :
    s'.control.Calm ∨ ∃ w depth v, frame = .item w depth o.place.consumed ∧ o.result = .ok v ∧
      s'.control.Blames w.info o.place.consumed := by
  cases frame with
  | map f =>
      simp only [deliver] at hstep
      split at hstep
      · cases hstep
        exact Or.inl h
      · split at hstep <;> cases hstep
        exact Or.inl (Outcome.calm_success _ _ _)
  | orElse later =>
      cases hstep
      exact Or.inl h
  | chainOuter chain =>
      simp only [deliver] at hstep
      split at hstep <;> cases hstep
      · next e herror =>
        refine Or.inl fun e' herror' => ?_
        cases herror'
        exact h _ herror
      · exact Or.inl trivial
  | chainInner outer chain =>
      cases hstep
      exact Or.inl h
  | item w depth start =>
      simp only [deliver, takeItem] at hstep
      cases hresult : o.result with
      | error e =>
          rw [hresult] at hstep
          cases hstep
          refine Or.inl fun e' herror' => ?_
          cases herror'
          exact h _ hresult
      | ok v =>
          rw [hresult] at hstep
          dsimp only at hstep
          split at hstep
          · next hempty =>
            cases hstep
            exact Or.inr ⟨w, depth, v, by rw [hempty], rfl, by rw [hempty]; rfl⟩
          · cases hstep
            exact Or.inl (Outcome.calm_success _ _ _)

/-- **Blame is handed on** without an event, until it comes out. -/
theorem step_blames (h : s.control.Blames info c) (hstep : step g src s = .next s') :
    s'.control.Blames info c ∧ s'.trace = s.trace := by
  obtain ⟨control, frames, demand, trace⟩ := s
  cases control with
  | give o tail =>
      have htrace := ((step_next hstep).resolve_left (by simp)).2
      cases frames with
      | nil => cases hstep
      | cons frame frames => exact ⟨deliver_blames h hstep, htrace⟩
  | _ => exact h.elim

/-- **How blame comes up**: a call is refused, with an event, or a repetition takes an item that
has consumed nothing. Any other step records at most that a rule was entered. -/
theorem step_calm (h : s.control.Calm) (hstep : step g src s = .next s') :
    (s'.control.Calm ∧ (s'.trace = s.trace ∨
      ∃ info c depth, s'.trace = s.trace.record (.entered info c depth))) ∨
    (∃ info c depth, s'.control.Blames info c ∧
      s'.trace = s.trace.record (.leftRecursion info c depth)) ∨
    ∃ w o c, s'.control.Blames w.info c ∧ s'.trace = s.trace ∧ s.TakesEmpty w o c := by
  by_cases hcall : ∃ r p crumbs, s.control = .call r p crumbs
  · obtain ⟨r, p, crumbs, hcontrol⟩ := hcall
    simp only [step, hcontrol] at hstep
    obtain ⟨info, form, -, ⟨-, rfl⟩ | ⟨-, rfl⟩⟩ := call_next hstep
    · exact Or.inr (Or.inl ⟨info, p.consumed, crumbs.depth, rfl, rfl⟩)
    · obtain ⟨hcalm, htrace⟩ := useForm_calm src info p (crumbs.enter info.id p.consumed)
        { s with trace := s.trace.record (.entered info p.consumed crumbs.depth) } form
      exact Or.inl ⟨hcalm, Or.inr ⟨_, _, _, htrace⟩⟩
  · have htrace := ((step_next hstep).resolve_left hcall).2
    obtain ⟨control, frames, demand, trace⟩ := s
    cases control with
    | call r p crumbs => exact absurd ⟨r, p, crumbs, rfl⟩ hcall
    | follow cell place crumbs =>
        simp only [step, follow] at hstep
        split at hstep <;> cases hstep
        exact Or.inl ⟨trivial, Or.inl rfl⟩
    | «continue» chain place =>
        simp only [step, advance] at hstep
        split at hstep
        · split at hstep <;> cases hstep
          exact Or.inl ⟨Outcome.calm_success _ _ _, Or.inl rfl⟩
        · cases hstep
          exact Or.inl ⟨trivial, Or.inl rfl⟩
    | force tail => cases tail <;> cases hstep <;> exact Or.inl ⟨trivial, Or.inl rfl⟩
    | walk w =>
        simp only [step, walk] at hstep
        split at hstep <;> cases hstep <;> exact Or.inl ⟨trivial, Or.inl rfl⟩
    | give o tail =>
        cases frames with
        | nil => cases hstep
        | cons frame frames =>
            rcases deliver_calm h hstep with hcalm | ⟨w, depth, v, rfl, hok, hblames⟩
            · exact Or.inl ⟨hcalm, Or.inl htrace⟩
            · exact Or.inr (Or.inr ⟨w, o, _, hblames, htrace, ⟨depth, frames, rfl⟩, ⟨tail, rfl⟩,
                ⟨v, hok⟩, rfl⟩)
    | finish =>
        cases frames with
        | nil => cases hstep
        | cons frame frames =>
            cases frame with
            | orElse later =>
                cases hstep
                exact Or.inl ⟨tryLater_calm _ _, Or.inl htrace⟩
            | _ =>
                cases hstep
                exact Or.inl ⟨trivial, Or.inl rfl⟩
    | fail f => cases hstep

end Machine

/-! ### Events of a parse -/

namespace Trace

theorem recording_record (t : Trace) (e : ParseEvent) :
    (t.record e).recording = t.recording := by
  unfold record
  split <;> rfl

theorem events_record {t : Trace} (h : t.recording = true) (e : ParseEvent) :
    (t.record e).events = t.events ++ [e] := by
  simp [record, h, events]

end Trace

/-- What a parse has recorded, after `log`: rules that it entered, and then, if a call was
refused, that event, with its blame among the outcomes. Any other blame comes from a repetition
that took an empty item. -/
def Reports (log log' : List ParseEvent) (visited : List (Moment τ α σ))
    (seen : List (Sighting τ α)) : Prop :=
  ∃ entered : List ParseEvent, (∀ e ∈ entered, e.isLeftRecursion = false) ∧
    (log' = log ++ entered ∧
        (∀ x ∈ seen, ∀ info c, x.outcome.result = .error ⟨c, .leftRecursion info⟩ →
          ∃ m ∈ visited, ∃ w o, m.state.TakesEmpty w o c ∧ w.info = info) ∨
      ∃ info c depth, log' = log ++ entered ++ [.leftRecursion info c depth] ∧
        ∃ x ∈ seen, x.outcome.result = .error ⟨c, .leftRecursion info⟩)

namespace Reports

variable {log log' : List ParseEvent} {m : Moment τ α σ} {x : Sighting τ α}

theorem visit (h : Reports log log' visited seen) : Reports log log' (m :: visited) seen := by
  obtain ⟨entered, hentered, ⟨hlog, hblame⟩ | hrefused⟩ := h
  · refine ⟨entered, hentered, Or.inl ⟨hlog, fun x hx info c herror => ?_⟩⟩
    obtain ⟨m', hm', htakes⟩ := hblame x hx info c herror
    exact ⟨m', List.mem_cons_of_mem _ hm', htakes⟩
  · exact ⟨entered, hentered, Or.inr hrefused⟩

theorem enter {e : ParseEvent} (he : e.isLeftRecursion = false)
    (h : Reports (log ++ [e]) log' visited seen) : Reports log log' visited seen := by
  obtain ⟨entered, hentered, hrest⟩ := h
  rw [List.append_assoc, List.singleton_append] at hrest
  exact ⟨e :: entered, List.forall_mem_cons.2 ⟨he, hentered⟩, hrest⟩

theorem see (hx : x.outcome.decides = false) (h : Reports log log' visited seen) :
    Reports log log' visited (x :: seen) := by
  obtain ⟨entered, hentered, ⟨hlog, hblame⟩ | ⟨info, c, depth, hlog, y, hy, herror⟩⟩ := h
  · refine ⟨entered, hentered, Or.inl ⟨hlog, fun y hy info c herror => ?_⟩⟩
    rcases List.mem_cons.1 hy with rfl | hy
    · cases (Outcome.decides_of_blame herror).symm.trans hx
    · exact hblame y hy info c herror
  · exact ⟨entered, hentered,
      Or.inr ⟨info, c, depth, hlog, y, List.mem_cons_of_mem _ hy, herror⟩⟩

end Reports

namespace Unfolds

/-- Once a failure blames a rule, it is the only outcome that a parse still looks at. -/
theorem of_blames (h : Unfolds src gs s visited seen ended t)
    (hmakes : (verdict : Reader τ α _ _).Makes memory seen ended v)
    (hs : s.control.Blames info c) :
    ∃ x, seen = [x] ∧ x.outcome.result = .error ⟨c, .leftRecursion info⟩ ∧
      t.trace = s.trace := by
  induction h with
  | next hstep _ ih =>
      obtain ⟨hblames, htrace⟩ := Machine.step_blames hs hstep
      rw [← htrace]
      exact ih hmakes hblames
  | more hstep later _ =>
      obtain ⟨-, hcontrol, -⟩ := Machine.step_stream hstep
      rw [hcontrol] at hs
      cases hmakes with
      | goOn hreader _ =>
          -- a parse does not go on after blame
          cases (Outcome.decides_of_blame hs).symm.trans (not_decides_of_goOn hreader)
      | stop => exact absurd rfl (later.seen_ne_nil rfl)
  | waited hstep =>
      obtain ⟨rfl, place, crumbs, hcontrol⟩ := Machine.step_waiting hstep
      rw [hcontrol] at hs
      exact hs.elim
  | given hstep =>
      obtain ⟨rfl, hcontrol, -⟩ := Machine.step_stream hstep
      rw [hcontrol] at hs
      exact ⟨_, rfl, hs, rfl⟩
  | ended hstep =>
      obtain ⟨-, hcontrol, -⟩ := Machine.step_nothing hstep
      rw [hcontrol] at hs
      exact hs.elim

/-- **What a parse records**, from a state without blame on. -/
theorem reports (h : Unfolds src gs s visited seen ended t)
    (hmakes : (verdict : Reader τ α _ _).Makes memory seen ended v) (hs : s.control.Calm)
    (hrecording : s.trace.recording = true) :
    Reports s.trace.events t.trace.events visited seen := by
  induction h generalizing memory with
  | @next g gs s s' t visited seen ended hstep later ih =>
      rcases Machine.step_calm hs hstep with ⟨hcalm, htrace | ⟨info, c, depth, htrace⟩⟩ |
        ⟨info, c, depth, hblames, htrace⟩ | ⟨w, o, c, hblames, htrace, hempty⟩
      · rw [← htrace] at hrecording ⊢
        exact (ih hmakes hcalm hrecording).visit
      · -- a rule was entered, and its event stands before all that come later
        have hrecording' : s'.trace.recording = true := by
          rw [htrace, Trace.recording_record, hrecording]
        have hlater := ih hmakes hcalm hrecording'
        rw [htrace, Trace.events_record hrecording] at hlater
        exact (hlater.enter rfl).visit
      · -- the refused call is the last event, and its failure comes out
        obtain ⟨x, rfl, herror, htrace'⟩ := later.of_blames hmakes hblames
        rw [htrace', htrace, Trace.events_record hrecording]
        exact ⟨[], nofun, Or.inr ⟨info, c, depth, by rw [List.append_nil], x,
          List.mem_singleton_self x, herror⟩⟩
      · -- an empty item is blamed without an event
        obtain ⟨x, rfl, herror, htrace'⟩ := later.of_blames hmakes hblames
        rw [htrace', htrace]
        refine ⟨[], nofun, Or.inl ⟨(List.append_nil _).symm, fun y hy info c' herror' => ?_⟩⟩
        cases List.mem_singleton.1 hy
        cases herror.symm.trans herror'
        exact ⟨_, List.mem_cons_self .., w, o, hempty, rfl⟩
  | @more g gs s s' t o tail visited seen ended hstep later ih =>
      obtain ⟨rfl, hcontrol, -⟩ := Machine.step_stream hstep
      cases hmakes with
      | goOn hreader hmakes =>
          exact ((ih hmakes trivial hrecording).see (not_decides_of_goOn hreader)).visit
      | stop => exact absurd rfl (later.seen_ne_nil rfl)
  | waited hstep _ ih =>
      obtain ⟨rfl, -⟩ := Machine.step_waiting hstep
      exact ih hmakes hs hrecording
  | given hstep =>
      obtain ⟨rfl, hcontrol, -⟩ := Machine.step_stream hstep
      rw [hcontrol] at hs
      refine ⟨[], nofun, Or.inl ⟨(List.append_nil _).symm, fun x hx info c herror => ?_⟩⟩
      cases List.mem_singleton.1 hx
      cases hs _ herror
  | ended hstep =>
      obtain ⟨rfl, -⟩ := Machine.step_nothing hstep
      exact ⟨[], nofun, Or.inl ⟨(List.append_nil _).symm, nofun⟩⟩

end Unfolds

/-! ### Empty items -/

/-- A search in one grammar keeps to its contract in all states that it visits. -/
theorem Unfolds.honours {P : Contract τ} (h : Unfolds src [g] s visited seen ended t)
    (hs : s.Honours g src P) : ∀ m ∈ visited, m.state.Honours g src P := by
  refine h.invariant hs (fun hs hstep => ?_) (fun hs hstep => ?_)
  · have hhonours := Machine.step_honours hs
    rw [hstep] at hhonours
    exact hhonours
  · have hhonours := Machine.step_honours hs
    rw [hstep] at hhonours
    exact hhonours.2

/-- Where a walk takes an empty item, there is a repetition in the grammar that the walk belongs
to, and its item gives that outcome there. -/
theorem State.TakesEmpty.repeats {P : Contract τ} {w : Walk τ α (Tail τ α)}
    (h : s.TakesEmpty w o c) (hs : s.Honours g src P) :
    w.Repeats g ∧
      ∃ place, place.consumed = c ∧ Gives g src (.use w.item) place w.crumbs o.plain := by
  obtain ⟨⟨depth, frames, hframes⟩, ⟨tail, hcontrol⟩, -, -⟩ := h
  obtain ⟨hgives, hhonour⟩ := hs
  rw [hcontrol, hframes] at hgives
  rw [hframes] at hhonour
  exact ⟨hhonour.1.repeats, hgives.1.1⟩

/-! ### Parses -/

/-- In a grammar that was accepted, a parse of a list of tokens comes to an answer. -/
theorem Grammar.Accepts.walks {root : Rule} {a : Analysis} (h : g.Accepts root a)
    (hretains : g.Retains root) (htotal : g.Total root) (tokens : List τ) (trace : Trace) :
    ∃ visited v t, Walks (Source.ofList tokens) verdict [g] none
      (.calling root ⟨0, 0⟩ trace) visited v t := by
  have hdelivers := delivers_call tokens (h.complete hretains) htotal ⟨0, 0⟩ .root
  have hframes : (⟨.finish, [], 1, trace⟩ : State τ α).frames = [] := rfl
  obtain ⟨visited, seen, t, hunfolds, -⟩ := hdelivers.unfolds hframes
  exact Unfolds.walks hunfolds

/-- **A parse fails fast, and recording has no influence on it.** Whatever the budget, a search
comes to the same with and without recording. A parse that answers has at most one event that
reports left recursion. If there is one, it is the last event, and the answer is the failure that
it reports. If there is none and the answer blames a rule all the same, it names a repetition
whose item had a success that was tried at this position and consumed nothing. In a grammar
that was accepted, a parse of a list of tokens answers. -/
theorem fails_fast (g : Grammar τ α σ) (root : Rule) :
    (∀ (src : Source τ) (steps outcomes : Nat),
      explore g src verdict steps outcomes none (.calling root ⟨0, 0⟩ .silent)
        = (explore g src verdict steps outcomes none (.calling root ⟨0, 0⟩ .recorded)).silent) ∧
    (∀ (src : Source τ) (visited : List (Moment τ α σ)) (v : Verdict τ α) (t : State τ α),
      Walks src verdict [g] none (.calling root ⟨0, 0⟩ .recorded) visited v t →
      (t.trace.events.filter (·.isLeftRecursion)).length ≤ 1 ∧
      (∀ info c depth, .leftRecursion info c depth ∈ t.trace.events →
        t.trace.events.getLast? = some (.leftRecursion info c depth) ∧
          v = .error (.single ⟨c, .leftRecursion info⟩)) ∧
      ∀ es, v = .error es → es.isLeftRecursion = true →
        (∀ e ∈ t.trace.events, e.isLeftRecursion = false) →
        ∃ info c, es = .single ⟨c, .leftRecursion info⟩ ∧
          ∃ m ∈ visited, ∃ w o, m.state.TakesEmpty w o c ∧
            (∃ r collect, g.node? r = some ⟨info, .repetition w.item collect⟩) ∧
            ∃ place, place.consumed = c ∧
              Gives g src (.use w.item) place w.crumbs o.plain) ∧
    ∀ (a : Analysis) (tokens : List τ), g.Accepts root a → g.Retains root → g.Total root →
      ∃ visited v t, Walks (Source.ofList tokens) verdict [g] none
        (.calling root ⟨0, 0⟩ .recorded) visited v t := by
  refine ⟨?_, ?_, ?_⟩
  · intro src steps outcomes
    exact explore_silent g src verdict steps outcomes none (.calling root ⟨0, 0⟩ .recorded)
  · rintro src visited v t ⟨seen, ended, hunfolds, hmakes⟩
    have hcalm : (State.calling root ⟨0, 0⟩ .recorded : State τ α).control.Calm := trivial
    have hstart : (State.calling root ⟨0, 0⟩ .recorded : State τ α).trace.events = [] := rfl
    obtain ⟨entered, hentered, hreports⟩ := hunfolds.reports hmakes hcalm rfl
    rw [hstart, List.nil_append] at hreports
    have hnone : entered.filter (·.isLeftRecursion) = [] :=
      List.filter_eq_nil_iff.2 fun e he => by simp [hentered e he]
    rcases hreports with ⟨hevents, hempty⟩ | ⟨info, c, depth, hevents, x, hx, herror⟩
    · rw [hevents, hnone]
      refine ⟨Nat.zero_le 1, fun info c depth hmem => ?_, fun es hes hblame _ => ?_⟩
      · cases hentered _ hmem
      · subst hes
        obtain ⟨x, hx, info, c, herror, hes⟩ := exists_blame hmakes hblame
        obtain ⟨m, hm, w, o, htakes, rfl⟩ := hempty x hx info c herror
        obtain ⟨hrepeats, hgives⟩ := htakes.repeats
          (hunfolds.honours (State.honours_calling g src root ⟨0, 0⟩ .recorded) m hm)
        exact ⟨w.info, c, hes, m, hm, w, o, htakes, hrepeats, hgives⟩
    · rw [hevents, List.filter_append, hnone]
      refine ⟨Nat.le_refl 1, fun info' c' depth' hmem => ?_, fun es _ _ hinnocent => ?_⟩
      · -- only the last event reports left recursion
        have hlast := (List.mem_append.1 hmem).resolve_left fun hmem => by cases hentered _ hmem
        cases List.mem_singleton.1 hlast
        exact ⟨List.getLast?_concat, makes_blame hmakes hx herror⟩
      · cases hinnocent _ (List.mem_append_right _ (List.mem_singleton_self _))
  · intro a tokens haccepts hretains htotal
    exact haccepts.walks hretains htotal tokens .recorded

/-- One or more times nothing. -/
def Grammar.idle : Grammar Char Nat Unit where
  nodes := #[⟨⟨0, .epsilon, none⟩, .epsilon 0⟩, ⟨⟨1, .repetition, none⟩, .repetition ⟨0⟩ List.sum⟩]
  cells := #[]
  nextId := 2

/-- The rule that starts again at once is refused, which is the last event. A repetition of
nothing is blamed without such an event. A parse with the first rule always answers. -/
theorem stuttering_fails_fast :
    (∃ (t : State Char Nat), Ends (Source.ofList ['x']) verdict [Grammar.stuttering] none
        (.calling ⟨5⟩ ⟨0, 0⟩ .recorded)
        (.error (.single ⟨0, .leftRecursion ⟨0, .recursive, none⟩⟩)) t ∧
      t.trace.events.getLast? = some (.leftRecursion ⟨0, .recursive, none⟩ 0 3)) ∧
    (∃ (visited : List (Moment Char Nat Unit)) (t : State Char Nat),
      Walks (Source.ofList ['x']) verdict [Grammar.idle] none (.calling ⟨1⟩ ⟨0, 0⟩ .recorded)
        visited (.error (.single ⟨0, .leftRecursion ⟨1, .repetition, none⟩⟩)) t ∧
      (∀ e ∈ t.trace.events, e.isLeftRecursion = false) ∧
      ∃ m ∈ visited, ∃ w o, m.state.TakesEmpty w o 0 ∧
        ∃ r collect, Grammar.idle.node? r
          = some ⟨⟨1, .repetition, none⟩, .repetition w.item collect⟩) ∧
    ∃ a, Grammar.stuttering.Accepts ⟨5⟩ a ∧ Grammar.stuttering.Retains ⟨5⟩ ∧
      Grammar.stuttering.Total ⟨5⟩ ∧
      ∃ visited v t, Walks (Source.ofList ['x']) verdict [Grammar.stuttering] none
        (.calling ⟨5⟩ ⟨0, 0⟩ .recorded) visited v t := by
  refine ⟨?_, ?_, ?_⟩
  · have hexplore : explore Grammar.stuttering (Source.ofList ['x']) verdict 40 10 none
        (.calling ⟨5⟩ ⟨0, 0⟩ .recorded) = _ := rfl
    have hends : Ends (Source.ofList ['x']) verdict [Grammar.stuttering] none
        (.calling ⟨5⟩ ⟨0, 0⟩ .recorded) _ _ := .answer hexplore
    obtain ⟨visited, hwalks⟩ := ends_iff.1 hends
    obtain ⟨-, hevent, -⟩ := (fails_fast Grammar.stuttering ⟨5⟩).2.1 _ _ _ _ hwalks
    obtain ⟨hlast, hanswer⟩ := hevent ⟨0, .recursive, none⟩ 0 3 (by decide)
    exact ⟨_, hanswer ▸ hends, hlast⟩
  · have hexplore : explore Grammar.idle (Source.ofList ['x']) verdict 40 10 none
        (.calling ⟨1⟩ ⟨0, 0⟩ .recorded) = _ := rfl
    have hends : Ends (Source.ofList ['x']) verdict [Grammar.idle] none
        (.calling ⟨1⟩ ⟨0, 0⟩ .recorded) _ _ := .answer hexplore
    obtain ⟨visited, hwalks⟩ := ends_iff.1 hends
    obtain ⟨-, -, hblame⟩ := (fails_fast Grammar.idle ⟨1⟩).2.1 _ _ _ _ hwalks
    obtain ⟨info, c, hes, m, hm, w, o, htakes, hnode, -⟩ := hblame _ rfl rfl (by decide)
    cases hes
    exact ⟨visited, _, hwalks, by decide, m, hm, w, o, htakes, hnode⟩
  · obtain ⟨a, haccepts⟩ := Grammar.stuttering_accepts
    exact ⟨a, haccepts, Grammar.stuttering_retains, Grammar.stuttering_total,
      (fails_fast Grammar.stuttering ⟨5⟩).2.2 a ['x'] haccepts Grammar.stuttering_retains
        Grammar.stuttering_total⟩

end LazyGrammar

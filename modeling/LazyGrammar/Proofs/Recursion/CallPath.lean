import LazyGrammar.Proofs.Recursion.FailFast
import LazyGrammar.Proofs.Search.Likeness

/-!
# LazyGrammar.Proofs.Recursion.CallPath

**Events describe real call paths.** Streams are suspended and resumed, so the events of a
parse do not come in the order of nesting, and from one to the next the depth may jump by any
amount. Still every event but the first has its caller among the events before it
(`CallPaths`).

What ties a trail to past events is that every entry of it was recorded when it was made
(`Crumbs.Recorded`), and what ties a rule to its trail is that it was put off by the rule that
was entered last (`Likeness.calls`). The second is about all rules that a state names. That it
is kept is the step theorem for searches that go side by side, for a search beside itself.
-/

namespace LazyGrammar

variable {τ α σ : Type} {g : Grammar τ α σ} {src : Source τ} {root q r : Rule}
  {log log' : List ParseEvent} {crumbs : Crumbs} {s s' t : State τ α} {p₀ : Place} {e : ParseEvent}
  {visited : List (Moment τ α σ)} {seen : List (Sighting τ α)} {ended : Bool}

/-! ### Call paths -/

namespace ParseEvent

/-- The log has the caller of an event: a rule that was entered one level up, no further on,
and that uses the rule of the event directly. -/
def HasCaller (g : Grammar τ α σ) (log : List ParseEvent) (e : ParseEvent) : Prop :=
  ∃ q node r node' c d, g.node? q = some node ∧ .entered node.info c d ∈ log ∧
    e.depth = d + 1 ∧ c ≤ e.consumed ∧ g.Uses q r ∧ g.node? r = some node' ∧ node'.info = e.rule

/-- If an event reports left recursion, the log has its rule entered at the same position, less
deep. -/
def HasCircle (log : List ParseEvent) (e : ParseEvent) : Prop :=
  e.isLeftRecursion = true →
    ∃ info d, .entered info e.consumed d ∈ log ∧ info.id = e.rule.id ∧ d < e.depth

theorem HasCaller.depth_pos (h : e.HasCaller g log) : 0 < e.depth := by
  obtain ⟨_, _, _, _, _, d, _, _, hdepth, _⟩ := h
  exact hdepth ▸ Nat.succ_pos d

end ParseEvent

/-- Events that describe real call paths: the root is entered first, all that follows is
deeper, and events have their callers, and circles that they report, among those before them. -/
structure CallPaths (g : Grammar τ α σ) (root : Rule) (log : List ParseEvent) : Prop where
  first : log.head? = some (.entered (g.info root) 0 0)
  deeper : ∀ e ∈ log.tail, 0 < e.depth
  caller : ∀ {before e after}, log = before ++ e :: after → 0 < e.depth → e.HasCaller g before
  circle : ∀ {before e after}, log = before ++ e :: after → e.HasCircle before

/-- The last event of a log, or one before it. -/
theorem eq_append_cons_of_concat {before after : List ParseEvent} {e e' : ParseEvent}
    (h : log ++ [e] = before ++ e' :: after) :
    (before = log ∧ e' = e) ∨ ∃ after', log = before ++ e' :: after' := by
  rcases List.eq_nil_or_concat after with rfl | ⟨after', last, rfl⟩
  · obtain ⟨rfl, he⟩ := List.append_inj' h rfl
    cases he
    exact Or.inl ⟨rfl, rfl⟩
  · have hlog : log ++ [e] = (before ++ e' :: after') ++ [last] := by simpa using h
    exact Or.inr ⟨after', (List.append_inj' hlog rfl).1⟩

namespace CallPaths

theorem single (g : Grammar τ α σ) (root : Rule) :
    CallPaths g root [.entered (g.info root) 0 0] := by
  have honly : ∀ {before after : List ParseEvent} {e : ParseEvent},
      [.entered (g.info root) 0 0] = before ++ e :: after → e = .entered (g.info root) 0 0 := by
    intro before after e hlog
    exact List.mem_singleton.1 (hlog ▸ List.mem_append_right _ (List.mem_cons_self ..))
  refine ⟨rfl, nofun, fun hlog hdepth => ?_, fun hlog => ?_⟩
  · cases honly hlog
    cases hdepth
  · cases honly hlog
    exact nofun

theorem concat (h : CallPaths g root log) (hcaller : e.HasCaller g log)
    (hcircle : e.HasCircle log) : CallPaths g root (log ++ [e]) := by
  refine ⟨?_, ?_, fun hlog hdepth => ?_, fun hlog => ?_⟩
  · rw [List.head?_append, h.first]
    rfl
  · intro e' he'
    have hne : log ≠ [] := by
      rintro rfl
      cases h.first
    rw [List.tail_append_of_ne_nil hne] at he'
    rcases List.mem_append.1 he' with hold | hnew
    · exact h.deeper e' hold
    · cases List.mem_singleton.1 hnew
      exact hcaller.depth_pos
  · rcases eq_append_cons_of_concat hlog with ⟨rfl, rfl⟩ | ⟨after', hlog'⟩
    · exact hcaller
    · exact h.caller hlog' hdepth
  · rcases eq_append_cons_of_concat hlog with ⟨rfl, rfl⟩ | ⟨after', hlog'⟩
    · exact hcircle
    · exact h.circle hlog'

end CallPaths

/-! ### Trails and events -/

/-- A trail whose entries were all recorded when they were made. -/
inductive Crumbs.Recorded (log : List ParseEvent) : Crumbs → Prop
  | root : Recorded log .root
  | enter {crumbs : Crumbs} {info : RuleInfo} {c : Nat} (hbefore : crumbs.Recorded log)
      (hevent : .entered info c crumbs.depth ∈ log) : Recorded log (crumbs.enter info.id c)

/-- A trail whose last entry is that of a rule. -/
inductive Crumbs.Inside (g : Grammar τ α σ) (log : List ParseEvent) : Crumbs → Rule → Prop
  | enter {crumbs : Crumbs} {q : Rule} {node : Node τ α} {c : Nat}
      (hbefore : crumbs.Recorded log) (hnode : g.node? q = some node)
      (hevent : .entered node.info c crumbs.depth ∈ log) :
      Inside g log (crumbs.enter node.info.id c) q

theorem Crumbs.Recorded.mono (hlog : log ⊆ log') (h : crumbs.Recorded log) :
    crumbs.Recorded log' := by
  induction h with
  | root => exact .root
  | enter _ hevent ih => exact .enter ih (hlog hevent)

theorem Crumbs.Inside.mono (hlog : log ⊆ log') (h : crumbs.Inside g log q) :
    crumbs.Inside g log' q := by
  obtain ⟨hbefore, hnode, hevent⟩ := h
  exact .enter (hbefore.mono hlog) hnode (hlog hevent)

theorem Crumbs.Inside.recorded (h : crumbs.Inside g log q) : crumbs.Recorded log := by
  obtain ⟨hbefore, -, hevent⟩ := h
  exact .enter hbefore hevent

/-- What a trail holds was entered, less deep. -/
theorem Crumbs.Recorded.exists_of_mem (h : crumbs.Recorded log) {entry : RuleId × Nat}
    (hentry : entry ∈ crumbs.entries) :
    ∃ info d, .entered info entry.2 d ∈ log ∧ info.id = entry.1 ∧ d < crumbs.depth := by
  induction h with
  | root => cases hentry
  | @enter crumbs info c _ hevent ih =>
      rcases List.mem_cons.1 hentry with rfl | hentry
      · exact ⟨info, crumbs.depth, hevent, rfl, Nat.lt_succ_self _⟩
      · obtain ⟨info', d, hevent', hid, hlt⟩ := ih hentry
        exact ⟨info', d, hevent', hid, Nat.lt_succ_of_lt hlt⟩

/-- A search beside itself that names a rule with a trail only if the rule that was entered last
uses it. -/
def Likeness.calls (g : Grammar τ α σ) (log : List ParseEvent) : Likeness where
  rule crumbs r r' := r = r' ∧ ∃ q, crumbs.Inside g log q ∧ g.Uses q r
  cell crumbs cell := ∃ q info weak, crumbs.Inside g log q ∧
    g.node? q = some ⟨info, .reference cell weak⟩
  info info info' := info = info'

theorem Likeness.calls_le (hlog : log ⊆ log') :
    (Likeness.calls g log).Le (Likeness.calls g log') where
  rule := by
    rintro crumbs r r' ⟨rfl, q, hinside, huses⟩
    exact ⟨rfl, q, hinside.mono hlog, huses⟩
  cell := by
    rintro crumbs cell ⟨q, info, weak, hinside, hnode⟩
    exact ⟨q, info, weak, hinside.mono hlog, hnode⟩
  info := rfl

/-- A state names a rule with a trail only if the rule that was entered last uses it. -/
def State.Calls (g : Grammar τ α σ) (s : State τ α) : Prop :=
  s.Like (.calls g s.trace.events) s

/-- The form of a rule names what the rule uses. -/
theorem Form.like_calls {info : RuleInfo} {form : Form τ α} (hnode : g.node? q = some ⟨info, form⟩)
    (hinside : crumbs.Inside g log q) : form.Like (.calls g log) crumbs form :=
  Form.like_self (fun _ hr => ⟨rfl, q, hinside, .part hnode hr⟩)
    fun _ weak heq => ⟨q, info, weak, hinside, heq ▸ hnode⟩

theorem Target.like_calls {cell : CellId} (h : (Likeness.calls g log).cell crumbs cell) :
    (g.target cell).Like (.calls g log) crumbs (g.target cell) := by
  obtain ⟨q, info, weak, hinside, hnode⟩ := h
  cases htarget : g.target cell with
  | rule r => exact .rule ⟨rfl, q, hinside, .target hnode htarget⟩
  | fault f => exact .fault f
  | pending supplier => exact .pending supplier supplier
  | circular => exact .circular

/-! ### Steps -/

/-- Positions never decrease along a trail. -/
def Scope.ascending : Scope := ⟨fun _ => True, fun _ => True, fun p crumbs =>
  crumbs.Ascending p.consumed⟩

theorem Scope.ascending_kept (g : Grammar τ α σ) (src : Source τ) :
    Scope.ascending.Kept g src where
  part _ _ _ := trivial
  reference _ _ := trivial
  target _ _ := trivial
  enter _ _ hsite _ := hsite.enter _
  leads hsite way := hsite.mono way.consumed_le

/-- The event of a call: that the rule was entered, or that it was refused. -/
def ParseEvent.ofCall (info : RuleInfo) (p : Place) (crumbs : Crumbs) : ParseEvent :=
  if crumbs.holds info.id p.consumed then .leftRecursion info p.consumed crumbs.depth
  else .entered info p.consumed crumbs.depth

section OfCall

variable (info : RuleInfo) (p : Place) (crumbs : Crumbs)

@[simp] theorem ParseEvent.ofCall_rule : (ofCall info p crumbs).rule = info := by
  unfold ofCall
  split <;> rfl

@[simp] theorem ParseEvent.ofCall_consumed : (ofCall info p crumbs).consumed = p.consumed := by
  unfold ofCall
  split <;> rfl

@[simp] theorem ParseEvent.ofCall_depth : (ofCall info p crumbs).depth = crumbs.depth := by
  unfold ofCall
  split <;> rfl

variable {info p crumbs} {node : Node τ α}

theorem ParseEvent.ofCall_fresh (h : crumbs.holds info.id p.consumed = false) :
    ofCall info p crumbs = .entered info p.consumed crumbs.depth := by
  rw [ofCall, h, if_neg Bool.false_ne_true]

theorem ParseEvent.ofCall_held (h : crumbs.holds info.id p.consumed = true) :
    ofCall info p crumbs = .leftRecursion info p.consumed crumbs.depth := if_pos h

/-- The rule that was entered last is the caller, and was entered no further on. -/
theorem Crumbs.Inside.hasCaller (h : crumbs.Inside g log q) (huses : g.Uses q r)
    (hnode : g.node? r = some node) (hascending : crumbs.Ascending p.consumed) :
    (ParseEvent.ofCall node.info p crumbs).HasCaller g log := by
  obtain ⟨-, hcaller, hevent⟩ := h
  refine ⟨q, _, r, node, _, _, hcaller, hevent, ParseEvent.ofCall_depth .., ?_, huses, hnode,
    (ParseEvent.ofCall_rule ..).symm⟩
  rw [ParseEvent.ofCall_consumed]
  exact hascending.le _ (List.mem_cons_self ..)

/-- A call is refused only where the rule was entered. -/
theorem Crumbs.Recorded.hasCircle (h : crumbs.Recorded log)
    (hascending : crumbs.Ascending p.consumed) :
    (ParseEvent.ofCall info p crumbs).HasCircle log := by
  intro hcircle
  cases hheld : crumbs.holds info.id p.consumed with
  | false =>
      rw [ParseEvent.ofCall_fresh hheld] at hcircle
      cases hcircle
  | true =>
      rw [ParseEvent.ofCall_held hheld]
      exact h.exists_of_mem ((hascending.holds_iff _ _).1 hheld)

end OfCall

namespace Machine

/-- A call records its event. -/
theorem call_trace {p : Place} (h : call g src r p crumbs s = .next s') :
    ∃ node, g.node? r = some node ∧ s'.trace = s.trace.record (.ofCall node.info p crumbs) := by
  obtain ⟨info, form, hnode, ⟨hheld, rfl⟩ | ⟨hfresh, rfl⟩⟩ := call_next h
  · refine ⟨_, hnode, ?_⟩
    rw [ParseEvent.ofCall_held hheld]
    rfl
  · refine ⟨_, hnode, ?_⟩
    rw [ParseEvent.ofCall_fresh hfresh]
    exact (useForm_calm src info p _ _ form).2

theorem step_call_trace {p : Place} (hcontrol : s.control = .call r p crumbs)
    (hstep : step g src s = .next s') :
    ∃ node, g.node? r = some node ∧ s'.trace = s.trace.record (.ofCall node.info p crumbs) := by
  simp only [step, hcontrol] at hstep
  exact call_trace hstep

theorem step_recording (hstep : step g src s = .next s') :
    s'.trace.recording = s.trace.recording := by
  rcases step_next hstep with ⟨r, p, crumbs, hcontrol⟩ | ⟨-, htrace⟩
  · obtain ⟨node, -, htrace⟩ := step_call_trace hcontrol hstep
    rw [htrace, Trace.recording_record]
  · rw [htrace]

/-- A rule that is entered is recorded. -/
theorem entered_mem {p : Place} {node : Node τ α} (hcontrol : s.control = .call r p crumbs)
    (hstep : step g src s = .next s') (hrecording : s.trace.recording = true)
    (hnode : g.node? r = some node) (hfresh : crumbs.holds node.info.id p.consumed = false) :
    .entered node.info p.consumed crumbs.depth ∈ s'.trace.events := by
  obtain ⟨node', hnode', htrace⟩ := step_call_trace hcontrol hstep
  cases hnode.symm.trans hnode'
  rw [htrace, ParseEvent.ofCall_fresh hfresh, Trace.events_record hrecording]
  exact List.mem_append_right _ (List.mem_singleton_self _)

theorem events_subset (hstep : step g src s = .next s') (hrecording : s.trace.recording = true) :
    s.trace.events ⊆ s'.trace.events := by
  rcases step_next hstep with ⟨r, p, crumbs, hcontrol⟩ | ⟨-, htrace⟩
  · obtain ⟨node, -, htrace⟩ := step_call_trace hcontrol hstep
    rw [htrace, Trace.events_record hrecording]
    exact List.subset_append_left ..
  · rw [htrace]
    exact List.Subset.refl _

/-- **A step keeps to the calls of the grammar.** -/
theorem step_calls (hs : s.Calls g) (hrecording : s.trace.recording = true)
    (hstep : step g src s = .next s') : s'.Calls g := by
  have hlike : (step g src s).Like (.calls g s'.trace.events) (step g src s) := by
    refine step_like (hs.mono (Likeness.calls_le (events_subset hstep hrecording))) ?_
      fun _ hcell => Target.like_calls hcell
    rintro r p crumbs r' hcontrol ⟨rfl, q, hinside, -⟩
    obtain ⟨node, hnode, -⟩ := step_call_trace hcontrol hstep
    cases hheld : crumbs.holds node.info.id p.consumed with
    | true => exact .refused hnode hnode rfl rfl hheld
    | false =>
        -- the event of the call itself is what the trail of its form is recorded by
        have hevent := entered_mem hcontrol hstep hrecording hnode hheld
        exact .entered hnode hnode rfl rfl hheld
          (Form.like_calls hnode (.enter hinside.recorded hnode hevent))
  rw [hstep] at hlike
  cases hlike with
  | next h => exact h

end Machine

/-! ### Runs -/

/-- What holds all along a recorded search, once its root has been entered. -/
structure State.OnPath (g : Grammar τ α σ) (src : Source τ) (root : Rule) (s : State τ α) :
    Prop where
  calls : s.Calls g
  within : s.Within Scope.ascending src ⟨0, 0⟩
  recording : s.trace.recording = true
  log : CallPaths g root s.trace.events

namespace State.OnPath

/-- **A step adds at most an event that has its caller**, and its circle if it reports one. -/
theorem next (h : s.OnPath g src root) (hstep : Machine.step g src s = .next s') :
    s'.OnPath g src root := by
  obtain ⟨hcalls, hwithin, hrecording, hlog⟩ := h
  have hcalls' := Machine.step_calls hcalls hrecording hstep
  have hwithin' := Machine.step_within (Scope.ascending_kept g src) hwithin
  rw [hstep] at hwithin'
  rcases Machine.step_next hstep with ⟨r, p, crumbs, hcontrol⟩ | ⟨-, htrace⟩
  · obtain ⟨node, hnode, htrace⟩ := Machine.step_call_trace hcontrol hstep
    have hrecording' := (Machine.step_recording hstep).trans hrecording
    obtain ⟨_, hsite, -⟩ := hwithin
    have hcall := hcalls.control
    rw [hcontrol] at hsite hcall
    obtain ⟨-, -, hascending⟩ := hsite
    obtain ⟨_, -, q, hinside, huses⟩ := hcall
    have hlog' := hlog.concat (hinside.hasCaller huses hnode hascending)
      (hinside.recorded.hasCircle hascending)
    rw [← Trace.events_record hrecording, ← htrace] at hlog'
    exact ⟨hcalls', hwithin', hrecording', hlog'⟩
  · exact ⟨hcalls', hwithin', htrace ▸ hrecording, htrace ▸ hlog⟩

/-- Asking for more of a stream is no call. -/
theorem more {o : Outcome τ α} {tail : Tail τ α} (h : s.OnPath g src root)
    (hstep : Machine.step g src s = .stream o tail s') :
    (s'.goTo (.force tail)).OnPath g src root := by
  obtain ⟨hcalls, hwithin, hrecording, hlog⟩ := h
  have hwithin' := Machine.step_within (Scope.ascending_kept g src) hwithin
  rw [hstep] at hwithin'
  obtain ⟨rfl, hcontrol, -⟩ := Machine.step_stream hstep
  have hgive := hcalls.control
  rw [hcontrol] at hgive
  cases hgive with
  | give _ htail => exact ⟨hcalls.beside.goTo (.force htail), hwithin'.2, hrecording, hlog⟩

/-- Entering the root is the first event. -/
theorem of_calling (hstep : Machine.step g src (.calling root ⟨0, 0⟩ .recorded) = .next s) :
    s.OnPath g src root := by
  have hwithin : (State.calling root ⟨0, 0⟩ .recorded : State τ α).Within Scope.ascending src
      ⟨0, 0⟩ := ⟨⟨0, 0⟩, ⟨.refl, trivial, .root 0⟩, .refl⟩
  have hwithin' := Machine.step_within (Scope.ascending_kept g src) hwithin
  rw [hstep] at hwithin'
  obtain ⟨info, form, hnode, ⟨hheld, -⟩ | ⟨-, hs⟩⟩ := Machine.call_next hstep
  · cases hheld
  · change s = Machine.useForm src info ⟨0, 0⟩ (Crumbs.root.enter info.id 0)
      ⟨.call root ⟨0, 0⟩ .root, [], 1, ⟨true, #[.entered info 0 0]⟩⟩ form at hs
    have hinside : (Crumbs.root.enter info.id 0).Inside g [.entered info 0 0] root :=
      .enter .root hnode (List.mem_singleton_self _)
    have hcalls : s.Like (.calls g [.entered info 0 0]) s := by
      rw [hs]
      exact Machine.useForm_like (Form.like_calls hnode hinside) rfl ⟨0, 0⟩
        ⟨.nil, rfl, rfl, .cons (.entered rfl 0 0) .nil⟩
    have htrace : s.trace = ⟨true, #[.entered info 0 0]⟩ := by
      rw [hs]
      exact (Machine.useForm_calm ..).2
    have hevents : s.trace.events = [.entered info 0 0] := by rw [htrace]; rfl
    have hinfo : g.info root = info := by rw [Grammar.info, hnode]; rfl
    refine ⟨?_, hwithin', htrace ▸ rfl, ?_⟩
    · rw [State.Calls, hevents]
      exact hcalls
    · rw [hevents, ← hinfo]
      exact .single g root

end State.OnPath

theorem Unfolds.onPath (h : Unfolds src [g] s visited seen ended t) (hs : s.OnPath g src root) :
    t.OnPath g src root := by
  induction h using Unfolds.alone_induction with
  | next hstep _ ih => exact ih (hs.next hstep)
  | more hstep _ ih => exact ih (hs.more hstep)
  | given | ended => exact hs

/-- **The events of a search describe real call paths**, as far as anybody looks at it. -/
theorem Unfolds.callPaths
    (h : Unfolds src [g] (.calling root ⟨0, 0⟩ .recorded) visited seen ended t) :
    CallPaths g root t.trace.events := by
  obtain ⟨_, _, -, hstep, hunfolds⟩ := h.of_call
  exact (hunfolds.onPath (.of_calling hstep)).log

/-- **Traces describe real call paths.** The events of a parse with one grammar begin with the
entry of the root at the start. Every other event is deeper, and an event one level down has an
earlier entry one level up, no further on, of a rule that uses its rule directly. An event that
reports left recursion has an earlier entry of the same rule at the same position, less deep. In
a grammar that was accepted, a parse of a list of tokens comes to an end. -/
theorem events_are_calls (g : Grammar τ α σ) (root : Rule) :
    (∀ (src : Source τ) (v : Verdict τ α) (t : State τ α),
      Ends src verdict [g] none (.calling root ⟨0, 0⟩ .recorded) v t →
        CallPaths g root t.trace.events) ∧
    ∀ (a : Analysis) (tokens : List τ), g.Accepts root a → g.Retains root → g.Total root →
      ∃ v t, Ends (Source.ofList tokens) verdict [g] none
        (.calling root ⟨0, 0⟩ .recorded) v t := by
  refine ⟨fun src v t h => ?_, fun a tokens haccepts hretains htotal => ?_⟩
  · obtain ⟨visited, seen, ended, hunfolds, -⟩ := ends_iff.1 h
    exact hunfolds.callPaths
  · obtain ⟨visited, v, t, hwalks⟩ := haccepts.walks hretains htotal tokens .recorded
    exact ⟨v, t, ends_iff.2 ⟨visited, hwalks⟩⟩

/-- The rule that starts again at once: the refused call comes after the entry of a rule that has
not called it, and its caller is the one before. -/
theorem stuttering_events_are_calls :
    ∃ (a : Analysis) (v : Verdict Char Nat) (t : State Char Nat),
      Grammar.stuttering.Accepts ⟨5⟩ a ∧ Grammar.stuttering.Retains ⟨5⟩ ∧
      Grammar.stuttering.Total ⟨5⟩ ∧
      Ends (Source.ofList ['x']) verdict [Grammar.stuttering] none
        (.calling ⟨5⟩ ⟨0, 0⟩ .recorded) v t ∧
      t.trace.events = [.entered ⟨0, .recursive, none⟩ 0 0, .entered ⟨4, .oneOf, none⟩ 0 1,
        .entered ⟨2, .sequence, none⟩ 0 2, .entered ⟨1, .epsilon, none⟩ 0 3,
        .leftRecursion ⟨0, .recursive, none⟩ 0 3] ∧
      CallPaths Grammar.stuttering ⟨5⟩ t.trace.events := by
  obtain ⟨a, haccepts⟩ := Grammar.stuttering_accepts
  obtain ⟨v, t, hends⟩ := (events_are_calls Grammar.stuttering ⟨5⟩).2 a ['x'] haccepts
    Grammar.stuttering_retains Grammar.stuttering_total
  have hexplore : explore Grammar.stuttering (Source.ofList ['x']) verdict 40 10 none
      (.calling ⟨5⟩ ⟨0, 0⟩ .recorded) = _ := rfl
  obtain ⟨rfl, rfl⟩ := hends.unique (.answer hexplore)
  exact ⟨a, _, _, haccepts, Grammar.stuttering_retains, Grammar.stuttering_total, hends, rfl,
    (events_are_calls Grammar.stuttering ⟨5⟩).1 _ _ _ hends⟩

end LazyGrammar

import LazyGrammar.Proofs.Search.Meaning
import LazyGrammar.Search.Explore

/-!
# LazyGrammar.Proofs.Search.Delivery

**Work that delivers outcomes.** A piece of work is a change of state: it sets what is to be
done, and may push frames. It **delivers** a list of outcomes if the machine, left to do
it, gives the first outcome with a tail that delivers the others, and finishes if there is
none. Each time, only the frames from before the work are left.

Design points:

* Whatever waits below a piece of work has no influence on it, so work on a part can be
  looked at by itself (`Comes`), and a frame changes what its part delivers in a way that
  only depends on the frame.
* There is one lemma for each kind of frame. The stack of a walk has the outcomes that are
  still to come written down beside it (`Pending`).
-/

namespace LazyGrammar

variable {τ α σ : Type}

/-! ### Steps and work -/

/-- The machine gets from one state to another one. -/
def Machine.Steps (g : Grammar τ α σ) (src : Source τ) : State τ α → State τ α → Prop :=
  Relation.ReflTransGen fun s s' => Machine.step g src s = .next s'

/-- One piece of work turns into another one. -/
def Becomes (g : Grammar τ α σ) (src : Source τ) (go go' : State τ α → State τ α) : Prop :=
  ∀ s, ∃ s₁, s₁.frames = s.frames ∧ Machine.Steps g src (go s) (go' s₁)

/-- Work comes to a point where the frames are those from before it. -/
def Comes (g : Grammar τ α σ) (src : Source τ) (go : State τ α → State τ α)
    (control : Control τ α) : Prop :=
  ∀ s, ∃ s', Machine.Steps g src (go s) s' ∧ s'.control = control ∧ s'.frames = s.frames

/-- Work delivers outcomes. -/
def Delivers (g : Grammar τ α σ) (src : Source τ) :
    (State τ α → State τ α) → List (Outcome τ α) → Prop
  | go, [] => Comes g src go .finish
  | go, o :: os => ∃ tail, Comes g src go (.give o tail) ∧
      Delivers g src (State.goTo · (.force tail)) os

/-- Work above one more frame. -/
def under (frame : Frame τ α) (go : State τ α → State τ α) (s : State τ α) : State τ α :=
  go { s with frames := frame :: s.frames }

variable {g : Grammar τ α σ} {src : Source τ} {go go' go'' : State τ α → State τ α}
  {os os' : List (Outcome τ α)} {o : Outcome τ α} {tail : Tail τ α} {frame : Frame τ α}
  {p place : Place}

namespace Becomes

theorem of_step (h : ∀ s, Machine.step g src (go s) = .next (go' s)) : Becomes g src go go' :=
  fun s => ⟨s, rfl, .single (h s)⟩

theorem comes {control : Control τ α} (h : Becomes g src go go')
    (h' : Comes g src go' control) : Comes g src go control := by
  intro s
  obtain ⟨s₁, hframes, hsteps⟩ := h s
  obtain ⟨s', hsteps', hcontrol, hframes'⟩ := h' s₁
  exact ⟨s', hsteps.trans hsteps', hcontrol, hframes'.trans hframes⟩

theorem delivers (h : Becomes g src go go') (h' : Delivers g src go' os) :
    Delivers g src go os := by
  cases os with
  | nil => exact h.comes h'
  | cons o os =>
      obtain ⟨tail, hcomes, hrest⟩ := h'
      exact ⟨tail, h.comes hcomes, hrest⟩

end Becomes

namespace Comes

theorem goTo (control : Control τ α) : Comes g src (State.goTo · control) control :=
  fun s => ⟨s.goTo control, .refl, rfl, rfl⟩

/-- A frame gets the stream that the work above it comes to. -/
theorem deliver (h : Comes g src go (.give o tail))
    (hframe : ∀ s, Machine.deliver o tail s frame = .next (go' s)) :
    Becomes g src (under frame go) go' := by
  intro s
  obtain ⟨s', hsteps, hcontrol, hframes⟩ := h { s with frames := frame :: s.frames }
  refine ⟨{ s' with frames := s.frames }, rfl, hsteps.tail ?_⟩
  simp only [Machine.step, hcontrol, hframes, hframe]

/-- A frame is told that the work above it has nothing more. -/
theorem finish (h : Comes g src go .finish) :
    Becomes g src (under frame go) (Machine.finish · frame) := by
  intro s
  obtain ⟨s', hsteps, hcontrol, hframes⟩ := h { s with frames := frame :: s.frames }
  refine ⟨{ s' with frames := s.frames }, rfl, hsteps.tail ?_⟩
  simp only [Machine.step, hcontrol, hframes]

end Comes

namespace Delivers

theorem finish : Delivers g src (State.goTo · .finish) [] := Comes.goTo .finish

theorem give (h : Delivers g src (State.goTo · (.force tail)) os) :
    Delivers g src (State.goTo · (.give o tail)) (o :: os) :=
  ⟨tail, Comes.goTo _, h⟩

theorem forceDone : Delivers g src (State.goTo · (.force .done)) [] :=
  (Becomes.of_step fun _ => rfl).delivers finish

theorem single : Delivers g src (State.single · o) [o] := give forceDone

theorem walking {w : Walk τ α (Tail τ α)} (h : Delivers g src (State.goTo · (.walk w)) os) :
    Delivers g src (State.goTo · (.force (.walking w))) os :=
  (Becomes.of_step fun _ => rfl).delivers h

/-! ### Frames -/

theorem map {f : α → Except Fault α} (hf : ∀ v, ∃ w, f v = .ok w)
    (hos : ∀ o ∈ os, o.Fits src p) (h : Delivers g src go os) :
    Delivers g src (under (.map f) go)
      (os.flatMap (Outcome.followedBy fun v q => Outcome.ofValue q (f v))) := by
  induction os generalizing go with
  | nil => exact (Comes.finish h).delivers finish
  | cons o os ih =>
      obtain ⟨tail, hcomes, hrest⟩ := h
      have hlater : Delivers g src (State.goTo · (.force (.mapped f tail))) _ :=
        (Becomes.of_step fun _ => rfl).delivers
          (ih (fun o ho => hos o (List.mem_cons_of_mem _ ho)) hrest)
      rw [List.flatMap_cons]
      cases hresult : o.result with
      | error e =>
          -- the machine hands on the failure itself, the list has it made again
          have hsame := (hos o (List.mem_cons_self ..)).eq_failure hresult
          rw [Outcome.followedBy_error _ hresult, ← hsame]
          refine (hcomes.deliver fun s => ?_).delivers (give hlater)
          simp only [Machine.deliver, hresult]
      | ok v =>
          obtain ⟨w, hw⟩ := hf v
          rw [Outcome.followedBy_ok _ hresult, hw, Outcome.ofValue]
          refine (hcomes.deliver fun s => ?_).delivers (give hlater)
          simp only [Machine.deliver, hresult, hw]

theorem orElse {later : Later} (hlater : Delivers g src (Machine.tryLater later ·) os')
    (h : Delivers g src go os) : Delivers g src (under (.orElse later) go) (os ++ os') := by
  induction os generalizing go with
  | nil => exact (Comes.finish h).delivers hlater
  | cons o os ih =>
      obtain ⟨tail, hcomes, hrest⟩ := h
      refine (hcomes.deliver fun s => rfl).delivers (give ?_)
      exact (Becomes.of_step fun _ => rfl).delivers (ih hrest)

theorem chainInner {outer : Tail τ α} {chain : Chain α}
    (houter : Delivers g src (under (.chainOuter chain) (State.goTo · (.force outer))) os')
    (h : Delivers g src go os) :
    Delivers g src (under (.chainInner outer chain) go) (os ++ os') := by
  induction os generalizing go with
  | nil => exact (Comes.finish h).delivers houter
  | cons o os ih =>
      obtain ⟨tail, hcomes, hrest⟩ := h
      refine (hcomes.deliver fun s => rfl).delivers (give ?_)
      exact (Becomes.of_step fun _ => rfl).delivers (ih hrest)

theorem chainOuter {chain : Chain α} {next : α → Place → List (Outcome τ α)}
    (hos : ∀ o ∈ os, o.Fits src p)
    (hnext : ∀ v q, src.Leads p q → Delivers g src
      (State.goTo · (.continue { chain with values := chain.values ++ [v] } q)) (next v q))
    (h : Delivers g src go os) :
    Delivers g src (under (.chainOuter chain) go) (os.flatMap (Outcome.followedBy next)) := by
  induction os generalizing go with
  | nil => exact (Comes.finish h).delivers finish
  | cons o os ih =>
      obtain ⟨tail, hcomes, hrest⟩ := h
      have houter := ih (fun o ho => hos o (List.mem_cons_of_mem _ ho)) hrest
      rw [List.flatMap_cons]
      cases hresult : o.result with
      | error e =>
          -- the failure stays where it is, with nothing of its own to go on with
          rw [Outcome.followedBy_error _ hresult]
          have hlater : Delivers g src (State.goTo · (.force (.chained .done tail chain))) _ :=
            (Becomes.of_step fun _ => rfl).delivers (chainInner houter forceDone)
          refine (hcomes.deliver fun s => ?_).delivers (give hlater)
          simp only [Machine.deliver, hresult]
      | ok v =>
          rw [Outcome.followedBy_ok _ hresult]
          refine (hcomes.deliver fun s => ?_).delivers
            (chainInner houter (hnext v o.place (hos o (List.mem_cons_self ..)).way))
          simp only [Machine.deliver, hresult]
          rfl

end Delivers

/-! ### Walks -/

section Walks

variable {tokens : List τ} {attempt : Place → List (Outcome τ α)} {item : Rule} {info : RuleInfo}
  {crumbs : Crumbs} {collect : List α → α}

/-- What the stack of a walk has still to give, where the values of the latest run down to
the topmost frame are known. Frames further down share a part of these values. -/
inductive Pending (g : Grammar τ α σ) (tokens : List τ) (attempt : Place → List (Outcome τ α))
    (info : RuleInfo) (collect : List α → α) (p : Place) :
    List α → List (Visit τ α (Tail τ α)) → List (Outcome τ α) → Prop
  | nil {values : List α} : Pending g tokens attempt info collect p values [] []
  | start {values values' : List α} {stack : List (Visit τ α (Tail τ α))}
      {os : List (Outcome τ α)} {place : Place} (way : (Source.ofList tokens).Leads p place)
      (hvalues : values' <+: values)
      (rest : Pending g tokens attempt info collect p values' stack os) :
      Pending g tokens attempt info collect p values (.start values.length place :: stack)
        (runs tokens attempt info collect values place ++ os)
  | visit {values values' : List α} {stack : List (Visit τ α (Tail τ α))}
      {os items : List (Outcome τ α)} {start : Nat} {o : Outcome τ α} {tail : Tail τ α}
      (htail : Delivers g (Source.ofList tokens) (State.goTo · (.force tail)) items)
      (hitems : ∀ o ∈ items, o.Fits (Source.ofList tokens) p) (hvalues : values' <+: values)
      (rest : Pending g tokens attempt info collect p values' stack os) :
      Pending g tokens attempt info collect p values
        (.visit values.length start o tail :: stack)
        (items.flatMap (Outcome.followedBy (runsAfter tokens attempt info collect values start))
          ++ os)

/-- A walk delivers what the outcomes of an item lead to and then what its stack has to
give, if walks deliver whatever is less than that. -/
theorem delivers_item {values values' known : List α} {stack : List (Visit τ α (Tail τ α))}
    {items : List (Outcome τ α)} {start n : Nat}
    (hless : ∀ values known stack os, os.length < n →
      Pending g tokens attempt info collect p values stack os → values <+: known →
      Delivers g (Source.ofList tokens)
        (State.goTo · (.walk ⟨item, info, crumbs, collect, known, stack⟩)) os)
    (hn : (items.flatMap (Outcome.followedBy
      (runsAfter tokens attempt info collect values start)) ++ os).length ≤ n)
    (hstack : Delivers g (Source.ofList tokens)
      (State.goTo · (.walk ⟨item, info, crumbs, collect, known, stack⟩)) os)
    (rest : Pending g tokens attempt info collect p values' stack os)
    (hvalues : values' <+: values) (hknown : values <+: known)
    (hitems : ∀ o ∈ items, o.Fits (Source.ofList tokens) p)
    (h : Delivers g (Source.ofList tokens) go items) :
    Delivers g (Source.ofList tokens)
      (under (.item ⟨item, info, crumbs, collect, known, stack⟩ values.length start) go)
      (items.flatMap (Outcome.followedBy (runsAfter tokens attempt info collect values start))
        ++ os) := by
  cases items with
  | nil => exact (Comes.finish h).delivers hstack
  | cons o items =>
      obtain ⟨tail, hcomes, hrest⟩ := h
      have hvisit : Pending g tokens attempt info collect p values
          (.visit values.length start o tail :: stack) _ :=
        .visit hrest (fun o ho => hitems o (List.mem_cons_of_mem _ ho)) hvalues rest
      rw [List.flatMap_cons, List.append_assoc] at hn ⊢
      cases hresult : o.result with
      | error e =>
          rw [Outcome.followedBy_error _ hresult] at hn ⊢
          refine (hcomes.deliver fun s => ?_).delivers
            (.give (.walking (hless _ _ _ _ hn hvisit hknown)))
          simp only [Machine.deliver, Machine.takeItem, hresult]
      | ok v =>
          rw [Outcome.followedBy_ok _ hresult, runsAfter] at hn ⊢
          by_cases hstart : o.place.consumed = start
          · rw [if_pos hstart] at hn ⊢
            refine (hcomes.deliver fun s => ?_).delivers
              (.give (.walking (hless _ _ _ _ hn hvisit hknown)))
            simp only [Machine.deliver, Machine.takeItem, hresult, Outcome.circle, hstart, if_true]
          · -- a run, and then, before anything else on the stack, the longer ones
            rw [if_neg hstart] at hn ⊢
            have hstarted : Pending g tokens attempt info collect p (values ++ [v])
                (.start (values ++ [v]).length o.place ::
                  .visit values.length start o tail :: stack) _ :=
              .start (hitems o (List.mem_cons_self ..)).way (List.prefix_append values [v]) hvisit
            rw [List.length_append] at hstarted
            -- later items may have been known; the run goes on from the values before them
            have htake : known.take values.length = values :=
              (List.prefix_iff_eq_take.1 hknown).symm
            refine (hcomes.deliver fun s => ?_).delivers
              (.give (.walking (hless _ _ _ _ hn hstarted (List.prefix_refl _))))
            simp only [Machine.deliver, Machine.takeItem, hresult, if_neg hstart, htake]
            rfl

/-- **A walk delivers what its stack has to give.** -/
theorem delivers_walk {values known : List α} {stack : List (Visit τ α (Tail τ α))}
    (hattempt : ∀ q, ∀ o ∈ attempt q, o.Fits (Source.ofList tokens) q)
    (hitem : ∀ q, (Source.ofList tokens).Leads p q →
      Delivers g (Source.ofList tokens) (State.goTo · (.call item q crumbs)) (attempt q))
    (h : Pending g tokens attempt info collect p values stack os) (hknown : values <+: known) :
    Delivers g (Source.ofList tokens)
      (State.goTo · (.walk ⟨item, info, crumbs, collect, known, stack⟩)) os := by
  -- every outcome that is given makes the list shorter; where none is, the stack gets shorter
  obtain ⟨n, hn⟩ : ∃ n, os.length ≤ n := ⟨_, Nat.le_refl _⟩
  induction n using Nat.strongRecOn generalizing values known stack os with
  | ind n ih =>
      have hless : ∀ values known stack os, os.length < n →
          Pending g tokens attempt info collect p values stack os → values <+: known →
          Delivers g (Source.ofList tokens)
            (State.goTo · (.walk ⟨item, info, crumbs, collect, known, stack⟩)) os :=
        fun _ _ _ os hlt hpending hprefix => ih os.length hlt hpending hprefix (Nat.le_refl _)
      induction h generalizing known with
      | nil => exact (Becomes.of_step fun _ => rfl).delivers .finish
      | @start values values' stack os place way hvalues rest ihrest =>
          rw [runs_eq hattempt] at hn ⊢
          have hstack := ihrest (hvalues.trans hknown) (by rw [List.length_append] at hn; omega)
          have hitems : ∀ o ∈ attempt place, o.Fits (Source.ofList tokens) p :=
            fun o ho => (hattempt place o ho).of_leads way
          exact (Becomes.of_step fun _ => rfl).delivers
            (delivers_item hless hn hstack rest hvalues hknown hitems (hitem place way))
      | @visit values values' stack os items start o tail htail hitems hvalues rest ihrest =>
          have hstack := ihrest (hvalues.trans hknown) (by rw [List.length_append] at hn; omega)
          exact (Becomes.of_step fun _ => rfl).delivers
            (delivers_item hless hn hstack rest hvalues hknown hitems htail)

end Walks

/-! ### Forms and calls -/

section Calls

variable {tokens : List τ} {use : Rule → Place → List (Outcome τ α)} {crumbs : Crumbs}

theorem delivers_tryLater {first : Rule} {others : List Rule}
    (huse : ∀ r ∈ first :: others,
      Delivers g src (State.goTo · (.call r place crumbs)) (use r place)) :
    Delivers g src (Machine.tryLater ⟨first, others, place, crumbs⟩ ·)
      ((first :: others).flatMap fun r => use r place) := by
  induction others generalizing first with
  | nil =>
      rw [List.flatMap_singleton]
      exact huse first (List.mem_cons_self ..)
  | cons second others ih =>
      rw [List.flatMap_cons]
      exact .orElse (ih fun r hr => huse r (List.mem_cons_of_mem _ hr))
        (huse first (List.mem_cons_self ..))

/-- The rest of a sequence delivers its outcomes. The functions of the sequence never give
up on as many values as it has rules. -/
theorem delivers_continue {build : List α → Except Fault α} {n : Nat}
    (hfits : ∀ r q, ∀ o ∈ use r q, o.Fits (Source.ofList tokens) q)
    (hbuild : ∀ vs, vs.length = n → ∃ w, build vs = .ok w) {rules : List Rule}
    (huse : ∀ r ∈ rules, ∀ q, (Source.ofList tokens).Leads p q →
      Delivers g (Source.ofList tokens) (State.goTo · (.call r q crumbs)) (use r q))
    {values : List α} (hlength : values.length + rules.length = n)
    (way : (Source.ofList tokens).Leads p place) :
    Delivers g (Source.ofList tokens)
      (State.goTo · (.continue ⟨rules, values, crumbs, build⟩ place))
      (sequenceOutcomes use build rules values place) := by
  induction rules generalizing values place with
  | nil =>
      obtain ⟨w, hw⟩ := hbuild values hlength
      rw [sequenceOutcomes, hw, Outcome.ofValue]
      refine (Becomes.of_step fun s => ?_).delivers .single
      simp only [Machine.step, Machine.advance, State.goTo, hw]
      rfl
  | cons rule rules ih =>
      refine (Becomes.of_step fun _ => rfl).delivers (.chainOuter (hfits rule place) ?_
        (huse rule (List.mem_cons_self ..) place way))
      intro v q way'
      refine ih (fun r hr => huse r (List.mem_cons_of_mem _ hr)) ?_ (way.trans way')
      simp only [List.length_append, List.length_cons, List.length_nil] at hlength ⊢
      omega

/-- A form delivers its outcomes if the rules that it uses do. -/
theorem delivers_form {r : Rule} {info : RuleInfo} {form : Form τ α}
    (hnode : g.node? r = some ⟨info, form⟩) (hcomplete : g.Complete r) (htotal : g.Total r)
    (hfits : ∀ r q, ∀ o ∈ use r q, o.Fits (Source.ofList tokens) q)
    (huse : ∀ r' q, g.Uses r r' → (Source.ofList tokens).Leads place q →
      Delivers g (Source.ofList tokens) (State.goTo · (.call r' q crumbs)) (use r' q)) :
    Delivers g (Source.ofList tokens)
      (Machine.useForm (Source.ofList tokens) info place crumbs · form)
      (form.outcomes g tokens info use place) := by
  have hform := htotal.form hnode
  cases form with
  | terminal accept =>
      simp only [Machine.useForm, Machine.takeToken, Form.outcomes, Source.token_ofList]
      cases tokens[place.next]? with
      | none => exact .single
      | some t =>
          dsimp only
          obtain ⟨value, haccept⟩ := hform t
          rw [haccept]
          cases value with
          | none => exact .single
          | some v =>
              -- that a token has been looked at changes the demand only
              have hdemand : Becomes g (Source.ofList tokens)
                  (fun s => (s.demandAfter place.next).single (.success place.advance v))
                  (State.single · (.success place.advance v)) :=
                fun s => ⟨s.demandAfter place.next, rfl, .refl⟩
              exact hdemand.delivers .single
  | epsilon value => exact .single
  | endOfInput value =>
      simp only [Machine.useForm, Machine.takeEnd, Form.outcomes, Source.token_ofList]
      cases tokens[place.next]? with
      | none => exact .single
      | some t => exact .single
  | map inner f =>
      exact .map hform (hfits inner place)
        (huse inner place (.part hnode (List.mem_cons_self ..)) .refl)
  | repetition item collect =>
      have hitem : g.Uses r item := .part hnode (List.mem_cons_self ..)
      have hstart : Pending g tokens (use item) info collect place [] [.start 0 place] _ :=
        .start .refl (List.prefix_refl []) .nil
      rw [List.append_nil] at hstart
      exact delivers_walk (hfits item) (fun q way => huse item q hitem way) hstart
        (List.prefix_refl _)
  | reference cell weak =>
      obtain ⟨r', htarget⟩ := hcomplete.target hnode
      simp only [Form.outcomes, htarget]
      refine (Becomes.of_step fun s => ?_).delivers
        (huse r' place (.target hnode htarget) .refl)
      simp only [Machine.useForm, Machine.step, Machine.follow, State.goTo, htarget]
  | oneOf first others =>
      exact delivers_tryLater fun r' hr' => huse r' place (.part hnode hr') .refl
  | sequence first others build =>
      refine .chainOuter (hfits first place) ?_
        (huse first place (.part hnode (List.mem_cons_self ..)) .refl)
      intro v q way
      refine delivers_continue hfits hform ?_ ?_ way
      · exact fun r' hr' q way' => huse r' q (.part hnode (List.mem_cons_of_mem _ hr')) way'
      · simp only [List.nil_append, List.length_cons, List.length_nil]
        omega

theorem becomes_circle {r : Rule} {info : RuleInfo} {form : Form τ α}
    (hnode : g.node? r = some ⟨info, form⟩) (hheld : crumbs.holds info.id place.consumed = true) :
    Becomes g src (State.goTo · (.call r place crumbs)) (State.single · (.circle place info)) := by
  intro s
  refine ⟨{ s with trace := s.trace.record (.leftRecursion info place.consumed crumbs.depth) },
    rfl, .single ?_⟩
  simp only [Machine.step, Machine.call, State.goTo, hnode, hheld, if_true]
  rfl

theorem becomes_form {r : Rule} {info : RuleInfo} {form : Form τ α}
    (hnode : g.node? r = some ⟨info, form⟩) (hfresh : crumbs.holds info.id place.consumed = false) :
    Becomes g src (State.goTo · (.call r place crumbs))
      (Machine.useForm src info place (crumbs.enter info.id place.consumed) · form) := by
  intro s
  refine ⟨{ s.goTo (.call r place crumbs) with
    trace := s.trace.record (.entered info place.consumed crumbs.depth) }, rfl, .single ?_⟩
  simp only [Machine.step, Machine.call, State.goTo, hnode, hfresh]
  rfl

/-- **A call delivers the outcomes of the rule.** -/
theorem delivers_call (tokens : List τ) {r : Rule} (hcomplete : g.Complete r)
    (htotal : g.Total r) (place : Place) (crumbs : Crumbs) :
    Delivers g (Source.ofList tokens) (State.goTo · (.call r place crumbs))
      (g.outcomes tokens r place crumbs) := by
  induction h : g.height tokens place crumbs using Nat.strongRecOn
    generalizing r place crumbs with
  | ind n ih =>
      subst h
      obtain ⟨info, form, hnode⟩ := hcomplete.node
      rw [g.outcomes_eq]
      simp only [Grammar.outcomesOnce, hnode]
      split
      · next hheld => exact (becomes_circle hnode hheld).delivers .single
      · next hfresh =>
        rw [Bool.not_eq_true] at hfresh
        refine (becomes_form hnode hfresh).delivers
          (delivers_form hnode hcomplete htotal (fun r q => g.outcomes_fits r q _) ?_)
        intro r' q huses way
        exact ih _ (g.height_lt hnode hfresh way) (hcomplete.of_uses huses)
          (htotal.of_uses huses) q _ rfl

end Calls

end LazyGrammar

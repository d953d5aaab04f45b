import Mathlib.Data.List.Forall2
import LazyGrammar.Search.Explore

/-!
# LazyGrammar.Proofs.Search.Likeness

**Searches that go side by side.** A `Likeness` relates the rules that two searches may name
at corresponding points, each with the trail that it will be called with, and the informations
that they show. If corresponding calls enter forms that are alike (`CallLike`), both searches
take the same steps for ever: states that are alike lead to states that are alike
(`step_like`), and walks come to answers that are alike (`explore_like`).

Design points:

* Only a call and the end of a reference look at a grammar. So the step theorem asks for
  nothing but the call or the reference at hand, and the two grammars need not be alike anywhere
  else.
* A rule that is put off will be called with a trail that is known already. The likeness is
  told this trail, so that it may depend on what has happened on the way.
* Of a search that goes beside itself, the theorem says which rules it names with which
  trails. A likeness may grow on the way (`Likeness.Le`).
-/

namespace LazyGrammar

variable {τ α σ κ ρ : Type}

/-- Which rules two searches may name in each other's place, to be called with a trail, which
cells they may follow with a trail, and which informations they may show. -/
structure Likeness where
  rule : Crumbs → Rule → Rule → Prop
  cell : Crumbs → CellId → Prop
  info : RuleInfo → RuleInfo → Prop

/-- A likeness allows no more than another one, and the same informations. -/
structure Likeness.Le (L L' : Likeness) : Prop where
  rule : ∀ {crumbs r r'}, L.rule crumbs r r' → L'.rule crumbs r r'
  cell : ∀ {crumbs cell}, L.cell crumbs cell → L'.cell crumbs cell
  info : L'.info = L.info

/-! ### What is alike -/

/-- Reasons that only differ in what they show of the rule that they blame. -/
inductive Reason.Like (R : RuleInfo → RuleInfo → Prop) : Reason τ → Reason τ → Prop
  | unexpected (t : τ) : Like R (.unexpected t) (.unexpected t)
  | unexpectedEnd : Like R .unexpectedEnd .unexpectedEnd
  | expectedEnd (t : τ) : Like R (.expectedEnd t) (.expectedEnd t)
  | leftRecursion {info info' : RuleInfo} (h : R info info') :
      Like R (.leftRecursion info) (.leftRecursion info')

/-- Failures at one position, for reasons that are alike. -/
inductive ParseError.Like (R : RuleInfo → RuleInfo → Prop) : ParseError τ → ParseError τ → Prop
  | mk (c : Nat) {reason reason' : Reason τ} (h : reason.Like R reason') :
      Like R ⟨c, reason⟩ ⟨c, reason'⟩

/-- The same success, or failures that are alike. -/
inductive Outcome.Like (R : RuleInfo → RuleInfo → Prop) : Outcome τ α → Outcome τ α → Prop
  | ok (place : Place) (v : α) : Like R ⟨place, .ok v⟩ ⟨place, .ok v⟩
  | error (place : Place) {e e' : ParseError τ} (h : e.Like R e') :
      Like R ⟨place, .error e⟩ ⟨place, .error e'⟩

/-- Events of one kind at one point of two searches. -/
inductive ParseEvent.Like (R : RuleInfo → RuleInfo → Prop) : ParseEvent → ParseEvent → Prop
  | entered {info info' : RuleInfo} (h : R info info') (c depth : Nat) :
      Like R (.entered info c depth) (.entered info' c depth)
  | leftRecursion {info info' : RuleInfo} (h : R info info') (c depth : Nat) :
      Like R (.leftRecursion info c depth) (.leftRecursion info' c depth)

/-- Traces with events that are alike. -/
structure Trace.Like (R : RuleInfo → RuleInfo → Prop) (trace trace' : Trace) : Prop where
  recording : trace.recording = trace'.recording
  events : List.Forall₂ (ParseEvent.Like R) trace.events trace'.events

/-- Forms that only differ in the rules that they name. -/
inductive Form.Like (L : Likeness) (crumbs : Crumbs) : Form τ α → Form τ α → Prop
  | terminal (accept : τ → Except Fault (Option α)) :
      Like L crumbs (.terminal accept) (.terminal accept)
  | epsilon (value : α) : Like L crumbs (.epsilon value) (.epsilon value)
  | endOfInput (value : α) : Like L crumbs (.endOfInput value) (.endOfInput value)
  | map {inner inner' : Rule} (f : α → Except Fault α) (h : L.rule crumbs inner inner') :
      Like L crumbs (.map inner f) (.map inner' f)
  | repetition {item item' : Rule} (collect : List α → α) (h : L.rule crumbs item item') :
      Like L crumbs (.repetition item collect) (.repetition item' collect)
  | reference {cell : CellId} (weak : Bool) (h : L.cell crumbs cell) :
      Like L crumbs (.reference cell weak) (.reference cell weak)
  | oneOf {first first' : Rule} {others others' : List Rule}
      (h : List.Forall₂ (L.rule crumbs) (first :: others) (first' :: others')) :
      Like L crumbs (.oneOf first others) (.oneOf first' others')
  | sequence {first first' : Rule} {others others' : List Rule}
      (build : List α → Except Fault α)
      (h : List.Forall₂ (L.rule crumbs) (first :: others) (first' :: others')) :
      Like L crumbs (.sequence first others build) (.sequence first' others' build)

/-- Later alternatives that are alike. -/
inductive Later.Like (L : Likeness) : Later → Later → Prop
  | mk {rule rule' : Rule} {others others' : List Rule} (place : Place) {crumbs : Crumbs}
      (h : List.Forall₂ (L.rule crumbs) (rule :: others) (rule' :: others')) :
      Like L ⟨rule, others, place, crumbs⟩ ⟨rule', others', place, crumbs⟩

/-- Rests of sequences that are alike, after the same values. -/
inductive Chain.Like (L : Likeness) : Chain α → Chain α → Prop
  | mk {rules rules' : List Rule} (values : List α) {crumbs : Crumbs}
      (build : List α → Except Fault α) (h : List.Forall₂ (L.rule crumbs) rules rules') :
      Like L ⟨rules, values, crumbs, build⟩ ⟨rules', values, crumbs, build⟩

mutual

/-- Tails that stand for outcomes that are alike. -/
inductive Tail.Like (L : Likeness) : Tail τ α → Tail τ α → Prop
  | done : Tail.Like L .done .done
  | mapped {inner inner' : Tail τ α} (f : α → Except Fault α) (hinner : Tail.Like L inner inner') :
      Tail.Like L (.mapped f inner) (.mapped f inner')
  | orElse {first first' : Tail τ α} {later later' : Later} (hfirst : Tail.Like L first first')
      (hlater : later.Like L later') : Tail.Like L (.orElse first later) (.orElse first' later')
  | chained {inner inner' outer outer' : Tail τ α} {chain chain' : Chain α}
      (hinner : Tail.Like L inner inner') (houter : Tail.Like L outer outer')
      (hchain : chain.Like L chain') :
      Tail.Like L (.chained inner outer chain) (.chained inner' outer' chain')
  | walking {w w' : Walk τ α (Tail τ α)} (hw : Walk.Like L w w') :
      Tail.Like L (.walking w) (.walking w')

/-- Walks over runs of items that are alike, along the same values. -/
inductive Walk.Like (L : Likeness) : Walk τ α (Tail τ α) → Walk τ α (Tail τ α) → Prop
  | mk {item item' : Rule} {info info' : RuleInfo} {crumbs : Crumbs} (collect : List α → α)
      (values : List α) {stack stack' : List (Visit τ α (Tail τ α))}
      (hitem : L.rule crumbs item item') (hinfo : L.info info info')
      (hstack : VisitsLike L stack stack') :
      Walk.Like L ⟨item, info, crumbs, collect, values, stack⟩
        ⟨item', info', crumbs, collect, values, stack'⟩

/-- Stacks of walks that are alike, frame by frame. -/
inductive VisitsLike (L : Likeness) :
    List (Visit τ α (Tail τ α)) → List (Visit τ α (Tail τ α)) → Prop
  | nil : VisitsLike L [] []
  | start {stack stack' : List (Visit τ α (Tail τ α))} (depth : Nat) (place : Place)
      (hstack : VisitsLike L stack stack') :
      VisitsLike L (.start depth place :: stack) (.start depth place :: stack')
  | visit {stack stack' : List (Visit τ α (Tail τ α))} {o o' : Outcome τ α}
      {tail tail' : Tail τ α} (depth start : Nat) (ho : o.Like L.info o')
      (htail : Tail.Like L tail tail') (hstack : VisitsLike L stack stack') :
      VisitsLike L (.visit depth start o tail :: stack) (.visit depth start o' tail' :: stack')

end

/-- Frames that do the same with streams that are alike. -/
inductive Frame.Like (L : Likeness) : Frame τ α → Frame τ α → Prop
  | map (f : α → Except Fault α) : Like L (.map f) (.map f)
  | orElse {later later' : Later} (h : later.Like L later') :
      Like L (.orElse later) (.orElse later')
  | chainOuter {chain chain' : Chain α} (h : chain.Like L chain') :
      Like L (.chainOuter chain) (.chainOuter chain')
  | chainInner {outer outer' : Tail τ α} {chain chain' : Chain α} (houter : outer.Like L outer')
      (hchain : chain.Like L chain') : Like L (.chainInner outer chain) (.chainInner outer' chain')
  | item {w w' : Walk τ α (Tail τ α)} (hw : w.Like L w') (depth start : Nat) :
      Like L (.item w depth start) (.item w' depth start)

/-- The same thing is to be done now, with rules in each other's place. -/
inductive Control.Like (L : Likeness) : Control τ α → Control τ α → Prop
  | call {rule rule' : Rule} {crumbs : Crumbs} (place : Place) (h : L.rule crumbs rule rule') :
      Like L (.call rule place crumbs) (.call rule' place crumbs)
  | follow {cell : CellId} {crumbs : Crumbs} (place : Place) (h : L.cell crumbs cell) :
      Like L (.follow cell place crumbs) (.follow cell place crumbs)
  | continue {chain chain' : Chain α} (place : Place) (h : chain.Like L chain') :
      Like L (.continue chain place) (.continue chain' place)
  | force {tail tail' : Tail τ α} (h : tail.Like L tail') : Like L (.force tail) (.force tail')
  | walk {w w' : Walk τ α (Tail τ α)} (h : w.Like L w') : Like L (.walk w) (.walk w')
  | give {o o' : Outcome τ α} {tail tail' : Tail τ α} (ho : o.Like L.info o')
      (htail : tail.Like L tail') : Like L (.give o tail) (.give o' tail')
  | finish : Like L .finish .finish
  | fail (f : Fault) : Like L (.fail f) (.fail f)

/-- States that are alike up to what is to be done now. -/
structure State.Beside (L : Likeness) (s s' : State τ α) : Prop where
  frames : List.Forall₂ (Frame.Like L) s.frames s'.frames
  demand : s.demand = s'.demand
  trace : s.trace.Like L.info s'.trace

/-- States that are alike. -/
structure State.Like (L : Likeness) (s s' : State τ α) : Prop where
  control : s.control.Like L s'.control
  beside : s.Beside L s'

/-- The same comes of two steps. -/
inductive Progress.Like (L : Likeness) : Progress τ α → Progress τ α → Prop
  | next {s s' : State τ α} (h : s.Like L s') : Like L (.next s) (.next s')
  | stream {o o' : Outcome τ α} {tail tail' : Tail τ α} {s s' : State τ α} (ho : o.Like L.info o')
      (htail : tail.Like L tail') (h : s.Beside L s') :
      Like L (.stream o tail s) (.stream o' tail' s')
  | nothing {s s' : State τ α} (h : s.Beside L s') : Like L (.nothing s) (.nothing s')
  | fault (f : Fault) : Like L (.fault f) (.fault f)
  | waiting (cell : CellId) {s s' : State τ α} (h : s.Like L s') :
      Like L (.waiting cell s) (.waiting cell s')
  | circular : Like L .circular .circular

/-- Calls of rules in each other's place: there is no such rule, or both are refused, or both
enter forms that are alike. -/
inductive CallLike (L : Likeness) (g g' : Grammar τ α σ) (place : Place) (crumbs : Crumbs)
    (r r' : Rule) : Prop
  | missing (hnode : g.node? r = none) (hnode' : g'.node? r' = none)
  | refused {node node' : Node τ α} (hnode : g.node? r = some node)
      (hnode' : g'.node? r' = some node') (hid : node'.info.id = node.info.id)
      (hinfo : L.info node.info node'.info)
      (hheld : crumbs.holds node.info.id place.consumed = true)
  | entered {node node' : Node τ α} (hnode : g.node? r = some node)
      (hnode' : g'.node? r' = some node') (hid : node'.info.id = node.info.id)
      (hinfo : L.info node.info node'.info)
      (hfresh : crumbs.holds node.info.id place.consumed = false)
      (hform : node.form.Like L (crumbs.enter node.info.id place.consumed) node'.form)

/-- What two cells lead to, each in its grammar, when they are followed with a trail. -/
inductive Target.Like (L : Likeness) (crumbs : Crumbs) : Target σ → Target σ → Prop
  | rule {r r' : Rule} (h : L.rule crumbs r r') : Like L crumbs (.rule r) (.rule r')
  | fault (f : Fault) : Like L crumbs (.fault f) (.fault f)
  | pending (supplier supplier' : σ) : Like L crumbs (.pending supplier) (.pending supplier')
  | circular : Like L crumbs .circular .circular

variable {R : RuleInfo → RuleInfo → Prop} {L L' : Likeness} {g g' : Grammar τ α σ}
  {src : Source τ} {s s' : State τ α} {o o' : Outcome τ α} {tail tail' : Tail τ α}
  {w w' : Walk τ α (Tail τ α)} {crumbs : Crumbs} {p : Place}

/-! ### A likeness that grows -/

section Mono

variable (hle : L.Le L')

include hle

theorem Form.Like.mono {form form' : Form τ α} (h : form.Like L crumbs form') :
    form.Like L' crumbs form' := by
  cases h with
  | terminal accept => exact .terminal accept
  | epsilon value => exact .epsilon value
  | endOfInput value => exact .endOfInput value
  | map f h => exact .map f (hle.rule h)
  | repetition collect h => exact .repetition collect (hle.rule h)
  | reference weak h => exact .reference weak (hle.cell h)
  | oneOf h => exact .oneOf (h.imp fun _ _ => hle.rule)
  | sequence build h => exact .sequence build (h.imp fun _ _ => hle.rule)

theorem Later.Like.mono {later later' : Later} (h : later.Like L later') :
    later.Like L' later' := by
  obtain ⟨place, h⟩ := h
  exact .mk place (h.imp fun _ _ => hle.rule)

theorem Chain.Like.mono {chain chain' : Chain α} (h : chain.Like L chain') :
    chain.Like L' chain' := by
  obtain ⟨values, build, h⟩ := h
  exact .mk values build (h.imp fun _ _ => hle.rule)

mutual

theorem Tail.Like.mono {tail tail' : Tail τ α} : tail.Like L tail' → tail.Like L' tail'
  | .done => .done
  | .mapped f hinner => .mapped f hinner.mono
  | .orElse hfirst hlater => .orElse hfirst.mono (hlater.mono hle)
  | .chained hinner houter hchain => .chained hinner.mono houter.mono (hchain.mono hle)
  | .walking hw => .walking hw.mono

theorem Walk.Like.mono {w w' : Walk τ α (Tail τ α)} : w.Like L w' → w.Like L' w'
  | .mk collect values hitem hinfo hstack =>
    .mk collect values (hle.rule hitem) (hle.info ▸ hinfo) hstack.mono

theorem VisitsLike.mono {stack stack' : List (Visit τ α (Tail τ α))} :
    VisitsLike L stack stack' → VisitsLike L' stack stack'
  | .nil => .nil
  | .start depth place hstack => .start depth place hstack.mono
  | .visit depth start ho htail hstack =>
    .visit depth start (hle.info ▸ ho) htail.mono hstack.mono

end

theorem Frame.Like.mono {frame frame' : Frame τ α} (h : frame.Like L frame') :
    frame.Like L' frame' := by
  cases h with
  | map f => exact .map f
  | orElse h => exact .orElse (h.mono hle)
  | chainOuter h => exact .chainOuter (h.mono hle)
  | chainInner houter hchain => exact .chainInner (houter.mono hle) (hchain.mono hle)
  | item hw depth start => exact .item (hw.mono hle) depth start

theorem Control.Like.mono {control control' : Control τ α} (h : control.Like L control') :
    control.Like L' control' := by
  cases h with
  | call place h => exact .call place (hle.rule h)
  | follow place h => exact .follow place (hle.cell h)
  | «continue» place h => exact .continue place (h.mono hle)
  | force h => exact .force (h.mono hle)
  | walk h => exact .walk (h.mono hle)
  | give ho htail => exact .give (hle.info ▸ ho) (htail.mono hle)
  | finish => exact .finish
  | fail f => exact .fail f

theorem State.Beside.mono (h : s.Beside L s') : s.Beside L' s' :=
  ⟨h.frames.imp fun _ _ hframe => hframe.mono hle, h.demand, hle.info ▸ h.trace⟩

/-- States stay alike when the likeness grows. -/
theorem State.Like.mono (h : s.Like L s') : s.Like L' s' :=
  ⟨h.control.mono hle, h.beside.mono hle⟩

end Mono

/-! ### Steps -/

theorem Trace.Like.record {trace trace' : Trace} {e e' : ParseEvent} (h : trace.Like R trace')
    (he : e.Like R e') : (trace.record e).Like R (trace'.record e') := by
  obtain ⟨recording, log⟩ := trace
  obtain ⟨recording', log'⟩ := trace'
  obtain ⟨rfl, hevents⟩ := h
  unfold Trace.record
  split
  · refine ⟨rfl, ?_⟩
    simp only [Trace.events, Array.toList_push]
    exact List.rel_append hevents (.cons he .nil)
  · exact ⟨rfl, hevents⟩

theorem Tail.Like.isKnown_eq (h : tail.Like L tail') : tail.isKnown = tail'.isKnown := by
  cases h <;> rfl

theorem Outcome.Like.place_eq (h : o.Like R o') : o.place = o'.place := by
  cases h <;> rfl

theorem Outcome.like_refl (hR : ∀ info, R info info) (o : Outcome τ α) : o.Like R o := by
  obtain ⟨place, result⟩ := o
  cases result with
  | ok v => exact .ok place v
  | error e =>
      obtain ⟨c, reason⟩ := e
      refine .error place (.mk c ?_)
      cases reason with
      | unexpected t => exact .unexpected t
      | unexpectedEnd => exact .unexpectedEnd
      | expectedEnd t => exact .expectedEnd t
      | leftRecursion info => exact .leftRecursion (hR info)

theorem Trace.Like.refl (hR : ∀ info, R info info) (trace : Trace) : trace.Like R trace := by
  refine ⟨rfl, List.forall₂_same.2 fun e _ => ?_⟩
  cases e with
  | entered info c depth => exact .entered (hR info) c depth
  | leftRecursion info c depth => exact .leftRecursion (hR info) c depth

/-- A form goes beside itself if what it names does. -/
theorem Form.like_self {form : Form τ α} (hparts : ∀ r ∈ form.parts, L.rule crumbs r r)
    (hcell : ∀ cell weak, form = .reference cell weak → L.cell crumbs cell) :
    form.Like L crumbs form := by
  cases form with
  | terminal accept => exact .terminal accept
  | epsilon value => exact .epsilon value
  | endOfInput value => exact .endOfInput value
  | map inner f => exact .map f (hparts inner (List.mem_singleton_self _))
  | repetition item collect => exact .repetition collect (hparts item (List.mem_singleton_self _))
  | reference cell weak => exact .reference weak (hcell cell weak rfl)
  | oneOf first others => exact .oneOf (List.forall₂_same.2 hparts)
  | sequence first others build => exact .sequence build (List.forall₂_same.2 hparts)

theorem Outcome.like_circle {info info' : RuleInfo} (h : R info info') (p : Place) :
    (Outcome.circle p info : Outcome τ α).Like R (.circle p info') :=
  .error p (.mk p.consumed (.leftRecursion h))

namespace State.Beside

variable {control control' : Control τ α} {frame frame' : Frame τ α}

theorem goTo (h : s.Beside L s') (hcontrol : control.Like L control') :
    (s.goTo control).Like L (s'.goTo control') :=
  ⟨hcontrol, h.frames, h.demand, h.trace⟩

theorem push (h : s.Beside L s') (hframe : frame.Like L frame')
    (hcontrol : control.Like L control') :
    (s.push frame control).Like L (s'.push frame' control') :=
  ⟨hcontrol, .cons hframe h.frames, h.demand, h.trace⟩

theorem single (h : s.Beside L s') (ho : o.Like L.info o') : (s.single o).Like L (s'.single o') :=
  h.goTo (.give ho .done)

theorem record {e e' : ParseEvent} (h : s.Beside L s') (he : e.Like L.info e') :
    State.Beside L { s with trace := s.trace.record e } { s' with trace := s'.trace.record e' } :=
  ⟨h.frames, h.demand, h.trace.record he⟩

theorem demandAfter (h : s.Beside L s') (i : Nat) :
    (s.demandAfter i).Beside L (s'.demandAfter i) :=
  ⟨h.frames, congrArg (max · (i + 2)) h.demand, h.trace⟩

end State.Beside

namespace Machine

theorem tryLater_like {later later' : Later} (hlater : later.Like L later') (h : s.Beside L s') :
    (tryLater later s).Like L (tryLater later' s') := by
  obtain ⟨place, hrules⟩ := hlater
  cases hrules with
  | cons hrule hothers =>
      cases hothers with
      | nil => exact h.goTo (.call place hrule)
      | cons hnext hrest =>
          exact h.push (.orElse (.mk place (.cons hnext hrest))) (.call place hrule)

theorem takeToken_like (accept : τ → Except Fault (Option α)) (p : Place) (h : s.Beside L s') :
    (takeToken src accept p s).Like L (takeToken src accept p s') := by
  unfold takeToken
  split
  · exact h.single (.error _ (.mk _ .unexpectedEnd))
  · next t _ =>
    split
    · exact (h.demandAfter p.next).single (.ok _ _)
    · exact h.single (.error _ (.mk _ (.unexpected t)))
    · next f _ => exact h.goTo (.fail f)

theorem takeEnd_like (value : α) (p : Place) (h : s.Beside L s') :
    (takeEnd src value p s).Like L (takeEnd src value p s') := by
  unfold takeEnd
  split
  · exact h.single (.ok p value)
  · next t _ => exact h.single (.error _ (.mk _ (.expectedEnd t)))

theorem useForm_like {form form' : Form τ α} {info info' : RuleInfo}
    (hform : form.Like L crumbs form') (hinfo : L.info info info') (p : Place)
    (h : s.Beside L s') :
    (useForm src info p crumbs s form).Like L (useForm src info' p crumbs s' form') := by
  cases hform with
  | terminal accept => exact takeToken_like accept p h
  | epsilon value => exact h.single (.ok p value)
  | endOfInput value => exact takeEnd_like value p h
  | map f hinner => exact h.push (.map f) (.call p hinner)
  | repetition collect hitem =>
      exact h.goTo (.walk (.mk collect [] hitem hinfo (.start 0 p .nil)))
  | reference weak hcell => exact h.goTo (.follow p hcell)
  | oneOf hrules => exact tryLater_like (.mk p hrules) h
  | sequence build hrules =>
      cases hrules with
      | cons hfirst hothers => exact h.push (.chainOuter (.mk [] build hothers)) (.call p hfirst)

theorem call_like {r r' : Rule} (hcall : CallLike L g g' p crumbs r r') (h : s.Beside L s') :
    (call g src r p crumbs s).Like L (call g' src r' p crumbs s') := by
  cases hcall with
  | missing hnode hnode' =>
      simp only [call, hnode, hnode']
      exact .fault _
  | refused hnode hnode' hid hinfo hheld =>
      simp only [call, hnode, hnode', hid, hheld, if_true]
      exact .next ((h.record (.leftRecursion hinfo _ _)).single (Outcome.like_circle hinfo p))
  | entered hnode hnode' hid hinfo hfresh hform =>
      simp only [call, hnode, hnode', hid, hfresh, Bool.false_eq_true, if_false]
      exact .next (useForm_like hform hinfo p (h.record (.entered hinfo _ _)))

theorem follow_like {cell : CellId} (hcontrol : s.control.Like L s'.control)
    (htarget : (g.target cell).Like L crumbs (g'.target cell)) (h : s.Beside L s') :
    (follow g cell p crumbs s).Like L (follow g' cell p crumbs s') := by
  unfold follow
  generalize g.target cell = target, g'.target cell = target' at htarget
  cases htarget with
  | rule hrule => exact .next (h.goTo (.call p hrule))
  | fault f => exact .fault f
  | pending _ _ => exact .waiting cell ⟨hcontrol, h⟩
  | circular => exact .circular

theorem advance_like {chain chain' : Chain α} (hchain : chain.Like L chain') (p : Place)
    (h : s.Beside L s') : (advance chain p s).Like L (advance chain' p s') := by
  obtain ⟨values, build, hrules⟩ := hchain
  cases hrules with
  | nil =>
      simp only [advance]
      split
      · exact .next (h.single (.ok p _))
      · exact .fault _
  | cons hrule hrules =>
      exact .next (h.push (.chainOuter (.mk values build hrules)) (.call p hrule))

theorem force_like (htail : tail.Like L tail') (h : s.Beside L s') :
    (force s tail).Like L (force s' tail') := by
  cases htail with
  | done => exact h.goTo .finish
  | mapped f hinner => exact h.push (.map f) (.force hinner)
  | orElse hfirst hlater => exact h.push (.orElse hlater) (.force hfirst)
  | chained hinner houter hchain => exact h.push (.chainInner houter hchain) (.force hinner)
  | walking hw => exact h.goTo (.walk hw)

theorem walk_like (hw : w.Like L w') (h : s.Beside L s') :
    (walk w s).Like L (walk w' s') := by
  obtain ⟨collect, values, hitem, hinfo, hstack⟩ := hw
  cases hstack with
  | nil => exact h.goTo .finish
  | start depth place hstack =>
      exact h.push (.item (.mk collect values hitem hinfo hstack) depth place.consumed)
        (.call place hitem)
  | visit depth start _ htail hstack =>
      exact h.push (.item (.mk collect values hitem hinfo hstack) depth start) (.force htail)

theorem takeItem_like (hw : w.Like L w') (depth start : Nat) (ho : o.Like L.info o')
    (htail : tail.Like L tail') (h : s.Beside L s') :
    (takeItem w depth start o tail s).Like L (takeItem w' depth start o' tail' s') := by
  obtain ⟨collect, values, hitem, hinfo, hstack⟩ := hw
  have hvisits := VisitsLike.visit depth start ho htail hstack
  cases ho with
  | error place he =>
      obtain ⟨c, hreason⟩ := he
      exact h.goTo (.give (.error _ (.mk c hreason))
        (.walking (.mk collect values hitem hinfo hvisits)))
  | ok place v =>
      simp only [takeItem]
      split
      · -- an item that took nothing is blamed on the walk, by the information that it shows
        exact h.goTo (.give (.error _ (.mk start (.leftRecursion hinfo)))
          (.walking (.mk collect values hitem hinfo hvisits)))
      · exact h.goTo (.give (.ok place _)
          (.walking (.mk collect _ hitem hinfo (.start (depth + 1) place hvisits))))

theorem deliver_like {frame frame' : Frame τ α} (hframe : frame.Like L frame')
    (ho : o.Like L.info o') (htail : tail.Like L tail') (h : s.Beside L s') :
    (deliver o tail s frame).Like L (deliver o' tail' s' frame') := by
  cases hframe with
  | map f =>
      cases ho with
      | error place he => exact .next (h.goTo (.give (.error place he) (.mapped f htail)))
      | ok place v =>
          simp only [deliver]
          split
          · exact .next (h.goTo (.give (.ok place _) (.mapped f htail)))
          · exact .fault _
  | orElse hlater => exact .next (h.goTo (.give ho (.orElse htail hlater)))
  | chainOuter hchain =>
      cases ho with
      | error place he =>
          obtain ⟨c, hreason⟩ := he
          exact .next (h.goTo (.give (.error _ (.mk c hreason)) (.chained .done htail hchain)))
      | ok place v =>
          obtain ⟨values, build, hrules⟩ := hchain
          exact .next (h.push (.chainInner htail (.mk values build hrules))
            (.continue place (.mk (values ++ [v]) build hrules)))
  | chainInner houter hchain => exact .next (h.goTo (.give ho (.chained htail houter hchain)))
  | item hw depth start => exact .next (takeItem_like hw depth start ho htail h)

theorem finish_like {frame frame' : Frame τ α} (hframe : frame.Like L frame')
    (h : s.Beside L s') : (finish s frame).Like L (finish s' frame') := by
  cases hframe with
  | map f => exact h.goTo .finish
  | orElse hlater => exact tryLater_like hlater h
  | chainOuter hchain => exact h.goTo .finish
  | chainInner houter hchain => exact h.push (.chainOuter hchain) (.force houter)
  | item hw depth start => exact h.goTo (.walk hw)

/-- **States that are alike take the same step**, if the call at hand is alike in both
grammars, or what the cell at hand leads to. -/
theorem step_like (h : s.Like L s')
    (hcall : ∀ {r p crumbs r'}, s.control = .call r p crumbs → L.rule crumbs r r' →
      CallLike L g g' p crumbs r r')
    (hfollow : ∀ {cell p crumbs}, s.control = .follow cell p crumbs → L.cell crumbs cell →
      (g.target cell).Like L crumbs (g'.target cell)) :
    (step g src s).Like L (step g' src s') := by
  obtain ⟨control, frames, demand, trace⟩ := s
  obtain ⟨control', frames', demand', trace'⟩ := s'
  obtain ⟨hcontrol, hbeside⟩ := h
  cases hcontrol with
  | call place hrule => exact call_like (hcall rfl hrule) hbeside
  | follow place hcell => exact follow_like (.follow place hcell) (hfollow rfl hcell) hbeside
  | «continue» place hchain => exact advance_like hchain place hbeside
  | force htail => exact .next (force_like htail hbeside)
  | walk hw => exact .next (walk_like hw hbeside)
  | give ho htail =>
      obtain ⟨hframes, hdemand, htrace⟩ := hbeside
      cases hframes with
      | nil => exact .stream ho htail ⟨.nil, hdemand, htrace⟩
      | cons hframe hframes => exact deliver_like hframe ho htail ⟨hframes, hdemand, htrace⟩
  | finish =>
      obtain ⟨hframes, hdemand, htrace⟩ := hbeside
      cases hframes with
      | nil => exact .nothing ⟨.nil, hdemand, htrace⟩
      | cons hframe hframes => exact .next (finish_like hframe ⟨hframes, hdemand, htrace⟩)
  | fail f => exact .fault f

end Machine

/-! ### Runs -/

/-- Grammars that are alike wherever a search may come. -/
structure Grammar.Like (L : Likeness) (g g' : Grammar τ α σ) : Prop where
  call : ∀ {r r' crumbs} (p : Place), L.rule crumbs r r' → CallLike L g g' p crumbs r r'
  target : ∀ {crumbs cell}, L.cell crumbs cell → (g.target cell).Like L crumbs (g'.target cell)

/-- Runs go side by side from their second state on if their first steps come to the same. -/
theorem Machine.run_succ_like {n : Nat}
    (hstep : (Machine.step g src s).Like L (Machine.step g' src s'))
    (hlater : ∀ {s s' : State τ α}, s.Like L s' →
      (Machine.run g src n s).Like L (Machine.run g' src n s')) :
    (Machine.run g src (n + 1) s).Like L (Machine.run g' src (n + 1) s') := by
  unfold Machine.run
  generalize Machine.step g src s = progress, Machine.step g' src s' = progress' at hstep
  cases hstep with
  | next h => exact hlater h
  | stream ho htail h => exact .stream ho htail h
  | nothing h => exact .nothing h
  | fault f => exact .fault f
  | waiting cell h => exact .waiting cell h
  | circular => exact .circular

/-- **Searches that go side by side come to the same**, after any number of steps. -/
theorem Machine.run_like (hg : g.Like L g') (src : Source τ) (n : Nat) (h : s.Like L s') :
    (Machine.run g src n s).Like L (Machine.run g' src n s') := by
  induction n generalizing s s' with
  | zero => exact .next h
  | succ n ih =>
      exact run_succ_like (Machine.step_like h (fun _ hrule => hg.call _ hrule)
        fun _ hcell => hg.target hcell) ih

/-! ### Readers -/

/-- A reader makes the same of outcomes that are alike: its memories stay related, and so are its
answers. -/
structure Reader.Respects (R : RuleInfo → RuleInfo → Prop) (reader : Reader τ α κ ρ)
    (M : κ → κ → Prop) (A : ρ → ρ → Prop) : Prop where
  outcome : ∀ {m m' o o'} (known : Bool), M m m' → o.Like R o' →
    (∃ r r', reader.outcome m o known = .stop r ∧ reader.outcome m' o' known = .stop r' ∧ A r r') ∨
      ∃ n n', reader.outcome m o known = .goOn n ∧ reader.outcome m' o' known = .goOn n' ∧ M n n'
  finish : ∀ {m m'}, M m m' →
    (∃ r r', reader.finish m = .ok r ∧ reader.finish m' = .ok r' ∧ A r r') ∨
      ∃ f, reader.finish m = .error f ∧ reader.finish m' = .error f

/-- The same comes of two walks. -/
inductive Exploration.Like (L : Likeness) (M : κ → κ → Prop) (A : ρ → ρ → Prop) :
    Exploration τ α κ ρ → Exploration τ α κ ρ → Prop
  | answer {r r' : ρ} {s s' : State τ α} (hr : A r r') (h : s.Beside L s') :
      Like L M A (.answer r s) (.answer r' s')
  | fault (f : Fault) : Like L M A (.fault f) (.fault f)
  | waiting (cell : CellId) {m m' : κ} {s s' : State τ α} (hm : M m m') (h : s.Like L s') :
      Like L M A (.waiting cell m s) (.waiting cell m' s')
  | circular : Like L M A .circular .circular
  | unfinished : Like L M A .unfinished .unfinished

/-- Walks go side by side from their second outcome on if the searches for the first one come to
the same. -/
theorem explore_succ_like {reader : Reader τ α κ ρ} {M : κ → κ → Prop} {A : ρ → ρ → Prop}
    {steps outcomes : Nat} {m m' : κ} (hreader : reader.Respects L.info M A) (hm : M m m')
    (hrun : (Machine.run g src steps s).Like L (Machine.run g' src steps s'))
    (hlater : ∀ {m m' : κ} {s s' : State τ α}, M m m' → s.Like L s' →
      (explore g src reader steps outcomes m s).Like L M A
        (explore g' src reader steps outcomes m' s')) :
    (explore g src reader steps (outcomes + 1) m s).Like L M A
      (explore g' src reader steps (outcomes + 1) m' s') := by
  unfold explore
  generalize Machine.run g src steps s = progress, Machine.run g' src steps s' = progress' at hrun
  cases hrun with
  | stream ho htail h =>
      dsimp only
      rw [← htail.isKnown_eq]
      rcases hreader.outcome _ hm ho with ⟨r, r', hstop, hstop', hr⟩ |
        ⟨n, n', hgoOn, hgoOn', hn⟩
      · rw [hstop, hstop']
        exact .answer hr h
      · rw [hgoOn, hgoOn']
        exact hlater hn (h.goTo (.force htail))
  | nothing h =>
      dsimp only
      rcases hreader.finish hm with ⟨r, r', hok, hok', hr⟩ | ⟨f, herror, herror'⟩
      · rw [hok, hok']
        exact .answer hr h
      · rw [herror, herror']
        exact .fault f
  | fault f => exact .fault f
  | waiting cell h => exact .waiting cell hm h
  | circular => exact .circular
  | next h => exact .unfinished

/-- **Walks that go side by side come to the same**, within any budget. -/
theorem explore_like {reader : Reader τ α κ ρ} {M : κ → κ → Prop} {A : ρ → ρ → Prop}
    (hreader : reader.Respects L.info M A) (hg : g.Like L g') (src : Source τ)
    (steps outcomes : Nat) {m m' : κ} (hm : M m m') (h : s.Like L s') :
    (explore g src reader steps outcomes m s).Like L M A
      (explore g' src reader steps outcomes m' s') := by
  induction outcomes generalizing m m' s s' with
  | zero => exact .unfinished
  | succ outcomes ih =>
      exact explore_succ_like hreader hm (Machine.run_like hg src steps h) ih

/-! ### Verdicts -/

/-- Failures that are alike one by one. -/
def ParseErrors.Like (R : RuleInfo → RuleInfo → Prop) (es es' : ParseErrors τ) : Prop :=
  List.Forall₂ (ParseError.Like R) es.toList es'.toList

/-- The same value, or failures that are alike. -/
inductive Verdict.Like (R : RuleInfo → RuleInfo → Prop) : Verdict τ α → Verdict τ α → Prop
  | ok (v : α) : Verdict.Like R (.ok v) (.ok v)
  | error {es es' : ParseErrors τ} (h : es.Like R es') : Verdict.Like R (.error es) (.error es')

theorem ParseError.Like.isLeftRecursion_eq {e e' : ParseError τ} (h : e.Like R e') :
    e.isLeftRecursion = e'.isLeftRecursion := by
  obtain ⟨c, h⟩ := h
  cases h <;> rfl

theorem ParseError.Like.consumed_eq {e e' : ParseError τ} (h : e.Like R e') :
    e.consumed = e'.consumed := by
  cases h
  rfl

theorem ParseErrors.Like.consumed_eq {es es' : ParseErrors τ} (h : es.Like R es') :
    es.consumed = es'.consumed := by
  obtain _ | ⟨hfirst, -⟩ := h
  exact hfirst.consumed_eq

/-- How far a failure got decides what is kept of it, so the same is kept of one like it. -/
theorem ParseErrors.Like.merge {es es' : ParseErrors τ} {e e' : ParseError τ} (h : es.Like R es')
    (he : e.Like R e') : (es.merge e).Like R (es'.merge e') := by
  unfold ParseErrors.Like
  rw [ParseErrors.toList_merge, ParseErrors.toList_merge, ← h.consumed_eq, ← he.consumed_eq]
  split
  · exact .cons he .nil
  · split
    · exact List.rel_append h (.cons he .nil)
    · exact h

theorem mergeInto_like {memory memory' : Option (ParseErrors τ)} {e e' : ParseError τ}
    (h : Option.Rel (ParseErrors.Like R) memory memory') (he : e.Like R e') :
    (mergeInto memory e).Like R (mergeInto memory' e') := by
  cases h with
  | none => exact .cons he .nil
  | some h => exact h.merge he

/-- **A parse makes the same of streams that are alike.** -/
theorem verdict_respects : (verdict : Reader τ α _ _).Respects R
    (Option.Rel (ParseErrors.Like R)) (Verdict.Like R) where
  outcome := by
    intro m m' o o' known hm ho
    cases ho with
    | ok place v => exact Or.inl ⟨.ok v, .ok v, rfl, rfl, .ok v⟩
    | error place he =>
        simp only [verdict, ← he.isLeftRecursion_eq]
        split
        · exact Or.inl ⟨_, _, rfl, rfl, .error (.cons he .nil)⟩
        · exact Or.inr ⟨_, _, rfl, rfl, .some (mergeInto_like hm he)⟩
  finish := by
    intro m m' hm
    cases hm with
    | none => exact Or.inr ⟨_, rfl, rfl⟩
    | some h => exact Or.inl ⟨_, _, rfl, rfl, .error h⟩

/-! ### Collections -/

/-- Outcomes that are alike and that were seen with as much of their tails. -/
structure Sighting.Like (R : RuleInfo → RuleInfo → Prop) (x x' : Sighting τ α) : Prop where
  outcome : x.outcome.Like R x'.outcome
  known : x.known = x'.known

/-- Outcomes of two streams that are alike one by one. -/
def SightingsLike (R : RuleInfo → RuleInfo → Prop) (xs xs' : Array (Sighting τ α)) : Prop :=
  List.Forall₂ (Sighting.Like R) xs.toList xs'.toList

/-- Collections that want as many more outcomes. -/
structure Basket.Like (R : RuleInfo → RuleInfo → Prop) (basket basket' : Basket τ α) : Prop where
  sightings : SightingsLike R basket.sightings basket'.sightings
  wanted : basket.wanted = basket'.wanted

/-- **Whoever keeps the outcomes of streams that are alike keeps outcomes that are alike.** -/
theorem collect_respects : (collect : Reader τ α _ _).Respects R (Basket.Like R)
    (SightingsLike R) where
  outcome := by
    rintro ⟨xs, wanted⟩ ⟨xs', wanted'⟩ o o' known ⟨hxs, hwanted⟩ ho
    cases hwanted
    have hpush : SightingsLike R (xs.push ⟨o, known⟩) (xs'.push ⟨o', known⟩) := by
      rw [SightingsLike, Array.toList_push, Array.toList_push]
      exact List.rel_append hxs (.cons ⟨ho, rfl⟩ .nil)
    match wanted with
    | none => exact Or.inr ⟨_, _, rfl, rfl, hpush, rfl⟩
    | some 0 => exact Or.inl ⟨_, _, rfl, rfl, hxs⟩
    | some 1 => exact Or.inl ⟨_, _, rfl, rfl, hpush⟩
    | some (n + 2) => exact Or.inr ⟨_, _, rfl, rfl, hpush, rfl⟩
  finish hm := Or.inl ⟨_, _, rfl, rfl, hm.sightings⟩

end LazyGrammar

import LazyGrammar.Proofs.Rule.Reach
import LazyGrammar.Proofs.Search.Way
import LazyGrammar.Search.Explore

/-!
# LazyGrammar.Proofs.Search.Scope

**What a search keeps to.** A `Scope` says which rules and cells a search may name and
where it may call a rule with which trail. If the grammar keeps to a scope
(`Scope.Kept`), so does every state of a search that starts within it
(`step_within`), and every outcome fits the place where the search starts.

Design points:

* Streams, frames and tails are bounded from below by a place: all outcomes still to
  come are ahead of it. A chain or a walk may have a later bound than the stream it
  belongs to, since its trail is good from there on only.
* One proof serves all scopes. The scope in which everything is allowed gives what
  holds of every search; narrower ones give what holds of searches from a known rule
  or with a known trail.
-/

namespace LazyGrammar

variable {τ α σ κ ρ : Type}

/-- Which rules and cells a search may name, and where it may call a rule with which
trail. -/
structure Scope where
  rule : Rule → Prop
  cell : CellId → Prop
  site : Place → Crumbs → Prop

/-- A grammar keeps to a scope: nothing in scope leads out of it. -/
structure Scope.Kept (sc : Scope) (g : Grammar τ α σ) (src : Source τ) : Prop where
  part : ∀ {r node r'}, sc.rule r → g.node? r = some node → r' ∈ node.form.parts → sc.rule r'
  reference : ∀ {r info cell weak}, sc.rule r → g.node? r = some ⟨info, .reference cell weak⟩ →
    sc.cell cell
  target : ∀ {cell r}, sc.cell cell → g.target cell = .rule r → sc.rule r
  enter : ∀ {r node p crumbs}, sc.rule r → g.node? r = some node → sc.site p crumbs →
    crumbs.holds node.info.id p.consumed = false →
    sc.site p (crumbs.enter node.info.id p.consumed)
  leads : ∀ {p q crumbs}, sc.site p crumbs → src.Leads p q → sc.site q crumbs

/-- A scope allows no more than another one. -/
structure Scope.Le (sc sc' : Scope) : Prop where
  rule : ∀ {r}, sc.rule r → sc'.rule r
  cell : ∀ {cell}, sc.cell cell → sc'.cell cell
  site : ∀ {p crumbs}, sc.site p crumbs → sc'.site p crumbs

/-! ### Work put off -/

/-- Later alternatives within a scope, ahead of a place. -/
structure Later.Within (sc : Scope) (src : Source τ) (p : Place) (later : Later) : Prop where
  rules : ∀ r ∈ later.rule :: later.others, sc.rule r
  way : src.Leads p later.place
  site : sc.site later.place later.crumbs

/-- The rest of a sequence within a scope, for places ahead of the given one. -/
structure Chain.Within (sc : Scope) (p : Place) (chain : Chain α) : Prop where
  rules : ∀ r ∈ chain.rules, sc.rule r
  site : sc.site p chain.crumbs

/-- Tails within a scope, with outcomes ahead of a place. -/
inductive Tail.Within (sc : Scope) (src : Source τ) : Place → Tail τ α → Prop
  | done {p : Place} : Within sc src p .done
  | mapped {p : Place} {f : α → Except Fault α} {inner : Tail τ α}
      (hinner : Within sc src p inner) : Within sc src p (.mapped f inner)
  | orElse {p : Place} {first : Tail τ α} {later : Later} (hfirst : Within sc src p first)
      (hlater : later.Within sc src p) : Within sc src p (.orElse first later)
  | chained {p q : Place} {inner outer : Tail τ α} {chain : Chain α} (way : src.Leads p q)
      (hinner : Within sc src q inner) (houter : Within sc src q outer)
      (hchain : chain.Within sc q) : Within sc src p (.chained inner outer chain)
  | walking {p q : Place} {w : Walk τ α (Tail τ α)} (way : src.Leads p q)
      (hitem : sc.rule w.item) (hsite : sc.site q w.crumbs)
      (hstart : ∀ depth place, .start depth place ∈ w.stack → src.Leads q place)
      (hvisit : ∀ depth start o tail, .visit depth start o tail ∈ w.stack →
        Within sc src q tail) : Within sc src p (.walking w)

/-- A walk over runs of items within a scope, ahead of a place. -/
structure Walk.Within (sc : Scope) (src : Source τ) (p : Place) (w : Walk τ α (Tail τ α)) :
    Prop where
  item : sc.rule w.item
  site : sc.site p w.crumbs
  start : ∀ depth place, .start depth place ∈ w.stack → src.Leads p place
  visit : ∀ depth start o tail, .visit depth start o tail ∈ w.stack → tail.Within sc src p

variable {sc : Scope} {g : Grammar τ α σ} {src : Source τ} {p₀ p q : Place}

theorem Later.Within.mono {sc' : Scope} (hle : sc.Le sc') {later : Later}
    (h : later.Within sc src p) : later.Within sc' src p :=
  ⟨fun r hr => hle.rule (h.rules r hr), h.way, hle.site h.site⟩

theorem Chain.Within.mono {sc' : Scope} (hle : sc.Le sc') {chain : Chain α}
    (h : chain.Within sc p) : chain.Within sc' p :=
  ⟨fun r hr => hle.rule (h.rules r hr), hle.site h.site⟩

theorem Later.Within.of_leads {later : Later} (h : later.Within sc src q)
    (way : src.Leads p q) : later.Within sc src p :=
  ⟨h.rules, way.trans h.way, h.site⟩

theorem Tail.Within.of_leads {tail : Tail τ α} (h : tail.Within sc src q)
    (way : src.Leads p q) : tail.Within sc src p := by
  induction h with
  | done => exact .done
  | mapped _ ih => exact .mapped (ih way)
  | orElse _ hlater ih => exact .orElse (ih way) (hlater.of_leads way)
  | chained way' hinner houter hchain => exact .chained (way.trans way') hinner houter hchain
  | walking way' hitem hsite hstart hvisit =>
      exact .walking (way.trans way') hitem hsite hstart hvisit

theorem Walk.Within.tail {w : Walk τ α (Tail τ α)} (h : w.Within sc src q)
    (way : src.Leads p q) : (Tail.walking w).Within sc src p :=
  .walking way h.item h.site h.start h.visit

/-- What has been put off stays within a scope that grows. -/
theorem Tail.Within.mono {sc' : Scope} (hle : sc.Le sc') {tail : Tail τ α}
    (h : tail.Within sc src p) : tail.Within sc' src p := by
  induction h with
  | done => exact .done
  | mapped _ ih => exact .mapped ih
  | orElse _ hlater ih => exact .orElse ih (hlater.mono hle)
  | chained way _ _ hchain ihinner ihouter => exact .chained way ihinner ihouter (hchain.mono hle)
  | walking way hitem hsite hstart _ ih =>
      exact .walking way (hle.rule hitem) (hle.site hsite) hstart ih

theorem Walk.Within.mono {sc' : Scope} (hle : sc.Le sc') {w : Walk τ α (Tail τ α)}
    (h : w.Within sc src p) : w.Within sc' src p :=
  ⟨hle.rule h.item, hle.site h.site, h.start,
    fun depth start o tail hmem => (h.visit depth start o tail hmem).mono hle⟩

/-! ### States -/

/-- A frame within a scope, for streams ahead of a place. -/
def Frame.Within (sc : Scope) (src : Source τ) (p : Place) : Frame τ α → Prop
  | .map _ => True
  | .orElse later => later.Within sc src p
  | .chainOuter chain => chain.Within sc p
  | .chainInner outer chain => outer.Within sc src p ∧ chain.Within sc p
  | .item w _ _ => w.Within sc src p

/-- Frames within a scope, which take a stream ahead of `p` and in the end give one ahead
of `p₀`. -/
def FramesWithin (sc : Scope) (src : Source τ) (p₀ : Place) : Place → List (Frame τ α) → Prop
  | p, [] => src.Leads p₀ p
  | p, frame :: frames =>
    ∃ q, src.Leads q p ∧ frame.Within sc src q ∧ FramesWithin sc src p₀ q frames

/-- What is to be done now, within a scope and ahead of a place. -/
def Control.Within (sc : Scope) (src : Source τ) (p : Place) : Control τ α → Prop
  | .call rule place crumbs => src.Leads p place ∧ sc.rule rule ∧ sc.site place crumbs
  | .follow cell place crumbs => src.Leads p place ∧ sc.cell cell ∧ sc.site place crumbs
  | .continue chain place => src.Leads p place ∧ chain.Within sc place
  | .force tail => tail.Within sc src p
  | .walk w => w.Within sc src p
  | .give o tail => o.Fits src p ∧ tail.Within sc src p
  | .finish | .fail _ => True

/-- A state of a search that stays within a scope and gives outcomes ahead of `p₀`. -/
def State.Within (sc : Scope) (src : Source τ) (p₀ : Place) (s : State τ α) : Prop :=
  ∃ p, s.control.Within sc src p ∧ FramesWithin sc src p₀ p s.frames

/-- Whatever comes of a step stays within a scope, and an outcome fits. -/
def Progress.Within (sc : Scope) (src : Source τ) (p₀ : Place) : Progress τ α → Prop
  | .next s | .waiting _ s => s.Within sc src p₀
  | .stream o tail s => o.Fits src p₀ ∧ (s.goTo (.force tail)).Within sc src p₀
  | .nothing _ | .fault _ | .circular => True

theorem FramesWithin.of_leads {frames : List (Frame τ α)} (h : FramesWithin sc src p₀ p frames)
    (way : src.Leads p q) : FramesWithin sc src p₀ q frames := by
  cases frames with
  | nil => exact h.trans way
  | cons frame frames =>
      obtain ⟨r, way', hframe, hframes⟩ := h
      exact ⟨r, way'.trans way, hframe, hframes⟩

/-- The place where a search started leads to the one that its frames have got to. -/
theorem FramesWithin.leads {frames : List (Frame τ α)} (h : FramesWithin sc src p₀ p frames) :
    src.Leads p₀ p := by
  induction frames generalizing p with
  | nil => exact h
  | cons frame frames ih =>
      obtain ⟨q, way, -, hframes⟩ := h
      exact (ih hframes).trans way

theorem Frame.Within.mono {sc' : Scope} (hle : sc.Le sc') {frame : Frame τ α}
    (h : frame.Within sc src p) : frame.Within sc' src p := by
  cases frame with
  | map f => trivial
  | orElse later => exact Later.Within.mono hle h
  | chainOuter chain => exact Chain.Within.mono hle h
  | chainInner outer chain => exact ⟨h.1.mono hle, h.2.mono hle⟩
  | item w depth start => exact Walk.Within.mono hle h

theorem FramesWithin.mono {sc' : Scope} (hle : sc.Le sc') {frames : List (Frame τ α)}
    (h : FramesWithin sc src p₀ p frames) : FramesWithin sc' src p₀ p frames := by
  induction frames generalizing p with
  | nil => exact h
  | cons frame frames ih =>
      obtain ⟨q, way, hframe, hframes⟩ := h
      exact ⟨q, way, hframe.mono hle, ih hframes⟩

theorem Control.Within.mono {sc' : Scope} (hle : sc.Le sc') {control : Control τ α}
    (h : control.Within sc src p) : control.Within sc' src p := by
  cases control with
  | call rule place crumbs => exact ⟨h.1, hle.rule h.2.1, hle.site h.2.2⟩
  | follow cell place crumbs => exact ⟨h.1, hle.cell h.2.1, hle.site h.2.2⟩
  | «continue» chain place => exact ⟨h.1, h.2.mono hle⟩
  | force tail => exact Tail.Within.mono hle h
  | walk w => exact Walk.Within.mono hle h
  | give o tail => exact ⟨h.1, h.2.mono hle⟩
  | finish | fail f => trivial

/-- A state stays within a scope that grows. -/
theorem State.Within.mono {sc' : Scope} (hle : sc.Le sc') {s : State τ α}
    (h : s.Within sc src p₀) : s.Within sc' src p₀ := by
  obtain ⟨p, hcontrol, hframes⟩ := h
  exact ⟨p, hcontrol.mono hle, hframes.mono hle⟩

namespace State

variable {s : State τ α}

theorem within_goTo {control : Control τ α} (hframes : FramesWithin sc src p₀ p s.frames)
    (hcontrol : control.Within sc src p) : (s.goTo control).Within sc src p₀ :=
  ⟨p, hcontrol, hframes⟩

theorem within_push {frame : Frame τ α} {control : Control τ α}
    (hframes : FramesWithin sc src p₀ p s.frames) (hframe : frame.Within sc src p)
    (way : src.Leads p q) (hcontrol : control.Within sc src q) :
    (s.push frame control).Within sc src p₀ :=
  ⟨q, hcontrol, p, way, hframe, hframes⟩

theorem within_single {o : Outcome τ α} (hframes : FramesWithin sc src p₀ p s.frames)
    (ho : o.Fits src p) : (s.single o).Within sc src p₀ :=
  within_goTo hframes ⟨ho, .done⟩

end State

/-! ### Steps -/

namespace Machine

open State

variable {s : State τ α} {info : RuleInfo} {crumbs : Crumbs}

theorem tryLater_within {later : Later} (hlater : later.Within sc src p)
    (hframes : FramesWithin sc src p₀ p s.frames) :
    (tryLater later s).Within sc src p₀ := by
  obtain ⟨hrules, way, hsite⟩ := hlater
  unfold tryLater
  split
  · exact within_goTo hframes ⟨way, hrules _ (List.mem_cons_self ..), hsite⟩
  · next rule others hothers =>
    rw [hothers] at hrules
    refine within_push hframes ⟨?_, way, hsite⟩ way
      ⟨.refl, hrules _ (List.mem_cons_self ..), hsite⟩
    exact fun r hr => hrules r (List.mem_cons_of_mem _ hr)

theorem takeToken_within (accept : τ → Except Fault (Option α))
    (hframes : FramesWithin sc src p₀ p s.frames) :
    (takeToken src accept p s).Within sc src p₀ := by
  unfold takeToken
  split
  · next hnone => exact within_single hframes (Outcome.fits_failure .refl ⟨rfl, hnone⟩)
  · next t hsome =>
    split
    · have hframes : FramesWithin sc src p₀ p (s.demandAfter p.next).frames := hframes
      exact within_single hframes (Outcome.fits_success (.advance .refl hsome) _)
    · exact within_single hframes (Outcome.fits_failure .refl ⟨rfl, hsome⟩)
    · exact within_goTo hframes trivial

theorem takeEnd_within (value : α) (hframes : FramesWithin sc src p₀ p s.frames) :
    (takeEnd src value p s).Within sc src p₀ := by
  unfold takeEnd
  split
  · exact within_single hframes (Outcome.fits_success .refl _)
  · next t hsome => exact within_single hframes (Outcome.fits_failure .refl ⟨rfl, hsome⟩)

theorem useForm_within (hsc : sc.Kept g src) {r : Rule} (hrule : sc.rule r) {form : Form τ α}
    (hnode : g.node? r = some ⟨info, form⟩) (hsite : sc.site p crumbs)
    (hframes : FramesWithin sc src p₀ p s.frames) :
    (useForm src info p crumbs s form).Within sc src p₀ := by
  have hpart : ∀ r' ∈ form.parts, sc.rule r' := fun r' hr' => hsc.part hrule hnode hr'
  cases form with
  | terminal accept => exact takeToken_within accept hframes
  | epsilon value => exact within_single hframes (Outcome.fits_success .refl value)
  | endOfInput value => exact takeEnd_within value hframes
  | map inner f =>
      exact within_push hframes trivial .refl
        ⟨.refl, hpart inner (List.mem_cons_self ..), hsite⟩
  | repetition item collect =>
      refine within_goTo hframes ⟨hpart item (List.mem_cons_self ..), hsite, ?_, ?_⟩
      · intro depth place hmem
        cases List.mem_singleton.1 hmem
        exact .refl
      · intro depth start o tail hmem
        cases List.mem_singleton.1 hmem
  | reference cell weak =>
      exact within_goTo hframes ⟨.refl, hsc.reference hrule hnode, hsite⟩
  | oneOf first others => exact tryLater_within ⟨hpart, .refl, hsite⟩ hframes
  | sequence first others build =>
      refine within_push hframes ⟨?_, hsite⟩ .refl
        ⟨.refl, hpart first (List.mem_cons_self ..), hsite⟩
      exact fun r' hr' => hpart r' (List.mem_cons_of_mem _ hr')

theorem call_within (hsc : sc.Kept g src) {r : Rule} (hrule : sc.rule r)
    (hsite : sc.site p crumbs) (hframes : FramesWithin sc src p₀ p s.frames) :
    (call g src r p crumbs s).Within sc src p₀ := by
  unfold call
  split
  · trivial
  · next info form hnode =>
    split
    · exact within_single hframes (Outcome.fits_circle .refl info)
    · next hfresh =>
      refine useForm_within hsc hrule hnode ?_ hframes
      exact hsc.enter hrule hnode hsite (Bool.not_eq_true _ ▸ hfresh)

theorem advance_within {chain : Chain α} (hchain : chain.Within sc p)
    (hframes : FramesWithin sc src p₀ p s.frames) : (advance chain p s).Within sc src p₀ := by
  obtain ⟨hrules, hsite⟩ := hchain
  unfold advance
  split
  · split
    · exact within_single hframes (Outcome.fits_success .refl _)
    · trivial
  · next rule rules hcons =>
    rw [hcons] at hrules
    refine within_push hframes ⟨?_, hsite⟩ .refl ⟨.refl, hrules _ (List.mem_cons_self ..), hsite⟩
    exact fun r hr => hrules r (List.mem_cons_of_mem _ hr)

theorem force_within {tail : Tail τ α} (htail : tail.Within sc src p)
    (hframes : FramesWithin sc src p₀ p s.frames) : (force s tail).Within sc src p₀ := by
  cases htail with
  | done => exact within_goTo hframes trivial
  | mapped hinner => exact within_push hframes trivial .refl hinner
  | orElse hfirst hlater => exact within_push hframes hlater .refl hfirst
  | chained way hinner houter hchain =>
      -- the trail of the chain is good from a later place on: the frames go along with it
      exact within_push (hframes.of_leads way) ⟨houter, hchain⟩ .refl hinner
  | walking way hitem hsite hstart hvisit =>
      exact within_goTo (hframes.of_leads way) ⟨hitem, hsite, hstart, hvisit⟩

theorem walk_within (hsc : sc.Kept g src) {w : Walk τ α (Tail τ α)} (hw : w.Within sc src p)
    (hframes : FramesWithin sc src p₀ p s.frames) : (walk w s).Within sc src p₀ := by
  obtain ⟨hitem, hsite, hstart, hvisit⟩ := hw
  unfold walk
  split
  · exact within_goTo hframes trivial
  · next depth place stack hstack =>
    rw [hstack] at hstart hvisit
    have way := hstart depth place (List.mem_cons_self ..)
    refine within_push hframes ⟨hitem, hsite, ?_, ?_⟩ way ⟨.refl, hitem, hsc.leads hsite way⟩
    · exact fun d q hmem => hstart d q (List.mem_cons_of_mem _ hmem)
    · exact fun d i o t hmem => hvisit d i o t (List.mem_cons_of_mem _ hmem)
  · -- the tail of an item is forced at the bound of the walk, not at its own place
    next depth start o tail stack hstack =>
    rw [hstack] at hstart hvisit
    refine within_push hframes ⟨hitem, hsite, ?_, ?_⟩ .refl
      (hvisit depth start o tail (List.mem_cons_self ..))
    · exact fun d q hmem => hstart d q (List.mem_cons_of_mem _ hmem)
    · exact fun d i o t hmem => hvisit d i o t (List.mem_cons_of_mem _ hmem)

/-- A walk stays within its scope when the outcome of an item is put on its stack. -/
theorem within_visit {w : Walk τ α (Tail τ α)} (hw : w.Within sc src p) (depth start : Nat)
    (o : Outcome τ α) {tail : Tail τ α} (htail : tail.Within sc src p) :
    ({ w with stack := .visit depth start o tail :: w.stack } : Walk τ α (Tail τ α)).Within
      sc src p := by
  refine ⟨hw.item, hw.site, ?_, ?_⟩
  · intro d q hmem
    rcases List.mem_cons.1 hmem with h | h
    · cases h
    · exact hw.start d q h
  · intro d i o' t hmem
    rcases List.mem_cons.1 hmem with h | h
    · cases h
      exact htail
    · exact hw.visit d i o' t h

theorem takeItem_within {w : Walk τ α (Tail τ α)} (hw : w.Within sc src p) (depth start : Nat)
    {o : Outcome τ α} {tail : Tail τ α} (ho : o.Fits src p) (htail : tail.Within sc src p)
    (hframes : FramesWithin sc src p₀ p s.frames) :
    (takeItem w depth start o tail s).Within sc src p₀ := by
  have hvisited := within_visit hw depth start o htail
  unfold takeItem
  split
  · next e herror =>
    exact within_goTo hframes ⟨ho.failure herror, hvisited.tail .refl⟩
  · next v hok =>
    split
    · next hstart =>
      have hcircle : (Outcome.failure ⟨start, .leftRecursion w.info⟩ o.place.next :
          Outcome τ α).Fits src p := hstart ▸ Outcome.fits_circle ho.way w.info
      exact within_goTo hframes ⟨hcircle, hvisited.tail .refl⟩
    · refine within_goTo hframes ⟨Outcome.fits_success ho.way _,
        .walking .refl hw.item hw.site ?_ ?_⟩
      · intro d q hmem
        rcases List.mem_cons.1 hmem with h | h
        · cases h
          exact ho.way
        · exact hvisited.start d q h
      · intro d i o' t hmem
        rcases List.mem_cons.1 hmem with h | h
        · cases h
        · exact hvisited.visit d i o' t h

theorem deliver_within (hsc : sc.Kept g src) {o : Outcome τ α} {tail : Tail τ α}
    {frame : Frame τ α} (ho : o.Fits src p) (htail : tail.Within sc src p)
    (hframe : frame.Within sc src p) (hframes : FramesWithin sc src p₀ p s.frames) :
    (deliver o tail s frame).Within sc src p₀ := by
  cases frame with
  | map f =>
      simp only [deliver]
      split
      · exact within_goTo hframes ⟨ho, .mapped htail⟩
      · split
        · exact within_goTo hframes ⟨Outcome.fits_success ho.way _, .mapped htail⟩
        · trivial
  | orElse later => exact within_goTo hframes ⟨ho, .orElse htail hframe⟩
  | chainOuter chain =>
      simp only [deliver]
      split
      · next e herror =>
        exact within_goTo hframes ⟨ho.failure herror, .chained .refl .done htail hframe⟩
      · exact within_push hframes ⟨htail, hframe⟩ ho.way
          ⟨.refl, hframe.rules, hsc.leads hframe.site ho.way⟩
  | chainInner outer chain =>
      exact within_goTo hframes ⟨ho, .chained .refl htail hframe.1 hframe.2⟩
  | item w depth start => exact takeItem_within hframe depth start ho htail hframes

theorem finish_within {frame : Frame τ α} (hframe : frame.Within sc src p)
    (hframes : FramesWithin sc src p₀ p s.frames) : (finish s frame).Within sc src p₀ := by
  cases frame with
  | map f => exact within_goTo hframes trivial
  | orElse later => exact tryLater_within hframe hframes
  | chainOuter chain => exact within_goTo hframes trivial
  | chainInner outer chain => exact within_push hframes hframe.2 .refl hframe.1
  | item w depth start => exact within_goTo hframes hframe

/-- **A step stays within its scope.** -/
theorem step_within (hsc : sc.Kept g src) (h : s.Within sc src p₀) :
    (step g src s).Within sc src p₀ := by
  obtain ⟨control, frames, demand, trace⟩ := s
  obtain ⟨p, hcontrol, hframes⟩ := h
  cases control with
  | call rule place crumbs =>
      obtain ⟨way, hrule, hsite⟩ := hcontrol
      exact call_within hsc hrule hsite (hframes.of_leads way)
  | follow cell place crumbs =>
      obtain ⟨way, hcell, hsite⟩ := hcontrol
      unfold step follow
      dsimp only
      split
      · next r htarget =>
        exact within_goTo (hframes.of_leads way) ⟨.refl, hsc.target hcell htarget, hsite⟩
      · trivial
      · exact ⟨p, ⟨way, hcell, hsite⟩, hframes⟩
      · trivial
  | «continue» chain place =>
      obtain ⟨way, hchain⟩ := hcontrol
      exact advance_within hchain (hframes.of_leads way)
  | force tail => exact force_within hcontrol hframes
  | walk w => exact walk_within hsc hcontrol hframes
  | give o tail =>
      obtain ⟨ho, htail⟩ := hcontrol
      cases frames with
      -- without frames the stream is that of the whole search
      | nil => exact ⟨ho.of_leads hframes, within_goTo .refl (htail.of_leads hframes)⟩
      | cons frame frames =>
          obtain ⟨q, way, hframe, hframes⟩ := hframes
          exact deliver_within hsc (ho.of_leads way) (htail.of_leads way) hframe hframes
  | finish =>
      cases frames with
      | nil => trivial
      | cons frame frames =>
          obtain ⟨q, way, hframe, hframes⟩ := hframes
          exact finish_within hframe hframes
  | fail f => trivial

/-- A run stays within its scope. -/
theorem run_within (hsc : sc.Kept g src) (h : s.Within sc src p₀) (n : Nat) :
    (run g src n s).Within sc src p₀ := by
  induction n generalizing s with
  | zero => exact h
  | succ n ih =>
      have hstep := step_within hsc h
      unfold run
      split
      · next s' hnext =>
        rw [hnext] at hstep
        exact ih hstep
      · exact hstep

end Machine

/-! ### Searches below a rule -/

/-- A search below a rule. -/
def Scope.below (g : Grammar τ α σ) (root : Rule) : Scope where
  rule r := g.Reaches root r
  cell cell := ∃ r info weak, g.Reaches root r ∧ g.node? r = some ⟨info, .reference cell weak⟩
  site _ _ := True

theorem Scope.below_kept (g : Grammar τ α σ) (root : Rule) (src : Source τ) :
    (Scope.below g root).Kept g src where
  part hrule hnode hpart := hrule.tail (.part hnode hpart)
  reference hrule hnode := ⟨_, _, _, hrule, hnode⟩
  target hcell htarget := by
    obtain ⟨r, info, weak, hreach, hnode⟩ := hcell
    exact hreach.tail (.target hnode htarget)
  enter _ _ _ _ := trivial
  leads _ _ := trivial

/-- Two grammars have the same rules below a rule. -/
structure Grammar.SameBelow (g : Grammar τ α σ) (root : Rule) (g' : Grammar τ α σ) : Prop where
  node : ∀ {r}, g.Reaches root r → g'.node? r = g.node? r
  target : ∀ {r info cell weak}, g.Reaches root r →
    g.node? r = some ⟨info, .reference cell weak⟩ → g'.target cell = g.target cell

namespace Grammar.SameBelow

variable {g' : Grammar τ α σ} {root : Rule} {s : State τ α}

/-- A step below the rule is the same. -/
theorem step_eq (h : g.SameBelow root g') (hs : s.Within (Scope.below g root) src p₀) :
    Machine.step g' src s = Machine.step g src s := by
  obtain ⟨control, frames, demand, trace⟩ := s
  obtain ⟨p, hcontrol, -⟩ := hs
  cases control with
  | call r place crumbs =>
      obtain ⟨-, hreach, -⟩ := hcontrol
      simp only [Machine.step, Machine.call, h.node hreach]
  | follow cell place crumbs =>
      obtain ⟨-, ⟨r, info, weak, hreach, hnode⟩, -⟩ := hcontrol
      simp only [Machine.step, Machine.follow, h.target hreach hnode]
  | _ => rfl

theorem run_eq (h : g.SameBelow root g') (hs : s.Within (Scope.below g root) src p₀) (n : Nat) :
    Machine.run g' src n s = Machine.run g src n s := by
  induction n generalizing s with
  | zero => rfl
  | succ n ih =>
      have hwithin := Machine.step_within (Scope.below_kept g root src) hs
      simp only [Machine.run, h.step_eq hs]
      cases hstep : Machine.step g src s with
      | next s' =>
          rw [hstep] at hwithin
          exact ih hwithin
      | _ => rfl

/-- **A walk below the rule is the same**, whoever walks and with whatever budget. -/
theorem explore_eq (h : g.SameBelow root g') (hs : s.Within (Scope.below g root) src p₀)
    (reader : Reader τ α κ ρ) (steps outcomes : Nat) (memory : κ) :
    explore g' src reader steps outcomes memory s
      = explore g src reader steps outcomes memory s := by
  induction outcomes generalizing memory s with
  | zero => rfl
  | succ outcomes ih =>
      have hwithin := Machine.run_within (Scope.below_kept g root src) hs steps
      simp only [explore, h.run_eq hs]
      cases hrun : Machine.run g src steps s with
      | stream o tail s' =>
          rw [hrun] at hwithin
          dsimp only
          split
          · rfl
          · exact ih hwithin.2 _
      | _ => rfl

/-- A call of a rule that is below is the same. -/
theorem explore_call_eq (h : g.SameBelow root g') {r : Rule} (hr : g.Reaches root r)
    (src : Source τ) (reader : Reader τ α κ ρ) (steps outcomes : Nat) (memory : κ)
    (place : Place) (crumbs : Crumbs) (demand : Nat) (trace : Trace) :
    explore g' src reader steps outcomes memory ⟨.call r place crumbs, [], demand, trace⟩
      = explore g src reader steps outcomes memory
          ⟨.call r place crumbs, [], demand, trace⟩ := by
  have hwithin : (⟨.call r place crumbs, [], demand, trace⟩ : State τ α).Within
      (Scope.below g root) src place := ⟨place, ⟨.refl, hr, trivial⟩, .refl⟩
  exact h.explore_eq hwithin reader steps outcomes memory

end Grammar.SameBelow

end LazyGrammar

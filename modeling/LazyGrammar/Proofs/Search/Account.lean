import LazyGrammar.Proofs.Search.OnDemand
import LazyGrammar.Proofs.Search.Readers

/-!
# LazyGrammar.Proofs.Search.Account

**How an outcome comes about**, told apart from the search that finds it. `Gives` has one
rule for each way in which a rule of the grammar can come to an outcome. Every outcome that
any search comes to has such an account (`explore_heeds`), whatever the functions of the grammar
do: an account leaves the values out, and a function that gives up only takes outcomes away.

Design points:

* Work that waits for a stream turns what it may be given into what it gives. So a
  `Contract` for the stream of a whole search says what each frame may be given
  (`Frame.before`), from the outermost frame inwards.
* The machine goes through the outcomes of a rule in some order and with tails. None of
  that is in an account, so what is proved by induction on accounts does not depend on it.
-/

namespace LazyGrammar

variable {τ α σ κ ρ : Type}

/-- An outcome without its value. -/
def Outcome.plain (o : Outcome τ α) : Outcome τ Unit := ⟨o.place, o.result.map fun _ => ()⟩

/-- What can be given at a place. -/
inductive Task (τ α : Type)
  /-- A rule. -/
  | use (r : Rule)
  /-- The form of a rule that has been entered. -/
  | form (info : RuleInfo) (form : Form τ α)
  /-- The rest of a sequence. -/
  | rest (rules : List Rule)
  /-- One item or more, for a repetition with this information. -/
  | items (item : Rule) (info : RuleInfo)

/-- A task comes to an outcome, without its value, at a place and with a trail. -/
inductive Gives (g : Grammar τ α σ) (src : Source τ) :
    Task τ α → Place → Crumbs → Outcome τ Unit → Prop
  | circle {r : Rule} {node : Node τ α} {place : Place} {crumbs : Crumbs}
      (hnode : g.node? r = some node)
      (hheld : crumbs.holds node.info.id place.consumed = true) :
      Gives g src (.use r) place crumbs (.circle place node.info)
  | entered {r : Rule} {node : Node τ α} {place : Place} {crumbs : Crumbs} {o : Outcome τ Unit}
      (hnode : g.node? r = some node)
      (hfresh : crumbs.holds node.info.id place.consumed = false)
      (hform : Gives g src (.form node.info node.form) place
        (crumbs.enter node.info.id place.consumed) o) :
      Gives g src (.use r) place crumbs o
  | token {info : RuleInfo} {accept : τ → Except Fault (Option α)} {place : Place} {crumbs : Crumbs}
      {t : τ} {v : α} (htoken : src.token place.next = some t)
      (haccept : accept t = .ok (some v)) :
      Gives g src (.form info (.terminal accept)) place crumbs (.success place.advance ())
  | unexpected {info : RuleInfo} {accept : τ → Except Fault (Option α)} {place : Place}
      {crumbs : Crumbs} {t : τ}
      (htoken : src.token place.next = some t) (hreject : accept t = .ok none) :
      Gives g src (.form info (.terminal accept)) place crumbs
        (.failure ⟨place.consumed, .unexpected t⟩ place.next)
  | unexpectedEnd {info : RuleInfo} {accept : τ → Except Fault (Option α)} {place : Place}
      {crumbs : Crumbs} (hend : src.token place.next = none) :
      Gives g src (.form info (.terminal accept)) place crumbs
        (.failure ⟨place.consumed, .unexpectedEnd⟩ place.next)
  | epsilon {info : RuleInfo} {value : α} {place : Place} {crumbs : Crumbs} :
      Gives g src (.form info (.epsilon value)) place crumbs (.success place ())
  | ended {info : RuleInfo} {value : α} {place : Place} {crumbs : Crumbs}
      (hend : src.token place.next = none) :
      Gives g src (.form info (.endOfInput value)) place crumbs (.success place ())
  | expectedEnd {info : RuleInfo} {value : α} {place : Place} {crumbs : Crumbs} {t : τ}
      (htoken : src.token place.next = some t) :
      Gives g src (.form info (.endOfInput value)) place crumbs
        (.failure ⟨place.consumed, .expectedEnd t⟩ place.next)
  | map {info : RuleInfo} {inner : Rule} {f : α → Except Fault α} {place : Place} {crumbs : Crumbs}
      {o : Outcome τ Unit} (hinner : Gives g src (.use inner) place crumbs o) :
      Gives g src (.form info (.map inner f)) place crumbs o
  | repetition {info : RuleInfo} {item : Rule} {collect : List α → α} {place : Place}
      {crumbs : Crumbs} {o : Outcome τ Unit}
      (hitems : Gives g src (.items item info) place crumbs o) :
      Gives g src (.form info (.repetition item collect)) place crumbs o
  | reference {info : RuleInfo} {cell : CellId} {weak : Bool} {r : Rule} {place : Place}
      {crumbs : Crumbs} {o : Outcome τ Unit} (htarget : g.target cell = .rule r)
      (hr : Gives g src (.use r) place crumbs o) :
      Gives g src (.form info (.reference cell weak)) place crumbs o
  | oneOf {info : RuleInfo} {first : Rule} {others : List Rule} {r : Rule} {place : Place}
      {crumbs : Crumbs} {o : Outcome τ Unit} (hmem : r ∈ first :: others)
      (hr : Gives g src (.use r) place crumbs o) :
      Gives g src (.form info (.oneOf first others)) place crumbs o
  | sequence {info : RuleInfo} {first : Rule} {others : List Rule}
      {build : List α → Except Fault α} {place : Place} {crumbs : Crumbs} {o : Outcome τ Unit}
      (hrest : Gives g src (.rest (first :: others)) place crumbs o) :
      Gives g src (.form info (.sequence first others build)) place crumbs o
  | nothingLeft {place : Place} {crumbs : Crumbs} :
      Gives g src (.rest []) place crumbs (.success place ())
  | stopped {rule : Rule} {rules : List Rule} {place : Place} {crumbs : Crumbs}
      {o : Outcome τ Unit} {e : ParseError τ} (hrule : Gives g src (.use rule) place crumbs o)
      (herror : o.result = .error e) :
      Gives g src (.rest (rule :: rules)) place crumbs (.failure e o.place.next)
  | goneOn {rule : Rule} {rules : List Rule} {place : Place} {crumbs : Crumbs}
      {o o' : Outcome τ Unit} (hrule : Gives g src (.use rule) place crumbs o)
      (hok : o.result = .ok ()) (hrest : Gives g src (.rest rules) o.place crumbs o') :
      Gives g src (.rest (rule :: rules)) place crumbs o'
  | itemFailed {item : Rule} {info : RuleInfo} {place : Place} {crumbs : Crumbs}
      {o : Outcome τ Unit} {e : ParseError τ} (hitem : Gives g src (.use item) place crumbs o)
      (herror : o.result = .error e) :
      Gives g src (.items item info) place crumbs (.failure e o.place.next)
  | itemEmpty {item : Rule} {info : RuleInfo} {place : Place} {crumbs : Crumbs}
      {o : Outcome τ Unit} (hitem : Gives g src (.use item) place crumbs o)
      (hok : o.result = .ok ()) (hempty : o.place.consumed = place.consumed) :
      Gives g src (.items item info) place crumbs
        (.failure ⟨place.consumed, .leftRecursion info⟩ o.place.next)
  | item {item : Rule} {info : RuleInfo} {place : Place} {crumbs : Crumbs} {o : Outcome τ Unit}
      (hitem : Gives g src (.use item) place crumbs o) (hok : o.result = .ok ())
      (hfar : o.place.consumed ≠ place.consumed) :
      Gives g src (.items item info) place crumbs (.success o.place ())
  | moreItems {item : Rule} {info : RuleInfo} {place : Place} {crumbs : Crumbs}
      {o o' : Outcome τ Unit} (hitem : Gives g src (.use item) place crumbs o)
      (hok : o.result = .ok ()) (hfar : o.place.consumed ≠ place.consumed)
      (hmore : Gives g src (.items item info) o.place crumbs o') :
      Gives g src (.items item info) place crumbs o'

variable {g : Grammar τ α σ} {src : Source τ} {task : Task τ α} {place p : Place} {crumbs : Crumbs}

/-- Whatever a task gives lies ahead, and a failure is put down where its error is. -/
theorem Gives.fits {o : Outcome τ Unit} (h : Gives g src task place crumbs o) :
    o.Fits src place := by
  induction h with
  | circle hnode hheld => exact Outcome.fits_circle .refl _
  | entered hnode hfresh hform ih => exact ih
  | token htoken haccept => exact Outcome.fits_success (.advance .refl htoken) _
  | unexpected htoken hreject => exact Outcome.fits_failure .refl ⟨rfl, htoken⟩
  | unexpectedEnd hend => exact Outcome.fits_failure .refl ⟨rfl, hend⟩
  | epsilon => exact Outcome.fits_success .refl _
  | ended hend => exact Outcome.fits_success .refl _
  | expectedEnd htoken => exact Outcome.fits_failure .refl ⟨rfl, htoken⟩
  | map hinner ih => exact ih
  | repetition hitems ih => exact ih
  | reference htarget hr ih => exact ih
  | oneOf hmem hr ih => exact ih
  | sequence hrest ih => exact ih
  | nothingLeft => exact Outcome.fits_success .refl _
  | stopped hrule herror ih => exact ih.failure herror
  | goneOn hrule hok hrest ih ih' => exact ih'.of_leads ih.way
  | itemFailed hitem herror ih => exact ih.failure herror
  | itemEmpty hitem hok hempty ih => exact hempty ▸ Outcome.fits_circle ih.way _
  | item hitem hok hfar ih => exact Outcome.fits_success ih.way _
  | moreItems hitem hok hfar hmore ih ih' => exact ih'.of_leads ih.way

/-! ### Contracts -/

/-- What a stream may have in it. -/
abbrev Contract (τ : Type) := Outcome τ Unit → Prop

/-- What a sequence may be given by its current rule. -/
def Chain.before (g : Grammar τ α σ) (src : Source τ) (chain : Chain α) (P : Contract τ) :
    Contract τ := fun o =>
  (∀ e, o.result = .error e → P (.failure e o.place.next)) ∧
    (o.result = .ok () → ∀ o', Gives g src (.rest chain.rules) o.place chain.crumbs o' → P o')

/-- What a walk may be given by an item tried at a position: an outcome that the item gives
there, if what the walk makes of it is in the contract. -/
def Walk.before (g : Grammar τ α σ) (src : Source τ) (w : Walk τ α (Tail τ α)) (start : Nat)
    (P : Contract τ) : Contract τ := fun o =>
  (∃ place, place.consumed = start ∧ Gives g src (.use w.item) place w.crumbs o) ∧
    (∀ e, o.result = .error e → P (.failure e o.place.next)) ∧
    (o.result = .ok () →
      if o.place.consumed = start then P (.failure ⟨start, .leftRecursion w.info⟩ o.place.next)
      else P (.success o.place ()) ∧
        ∀ o', Gives g src (.items w.item w.info) o.place w.crumbs o' → P o')

/-- A walk belongs to a repetition of the grammar. -/
def Walk.Repeats (g : Grammar τ α σ) (w : Walk τ α (Tail τ α)) : Prop :=
  ∃ r collect, g.node? r = some ⟨w.info, .repetition w.item collect⟩

/-- Later alternatives only give what the contract has. -/
def Later.Honours (g : Grammar τ α σ) (src : Source τ) (P : Contract τ) (later : Later) : Prop :=
  ∀ r ∈ later.rule :: later.others, ∀ o, Gives g src (.use r) later.place later.crumbs o → P o

/-- A tail only gives what the contract has. -/
inductive Tail.Honours (g : Grammar τ α σ) (src : Source τ) : Contract τ → Tail τ α → Prop
  | done {P : Contract τ} : Honours g src P .done
  | mapped {P : Contract τ} {f : α → Except Fault α} {inner : Tail τ α}
      (hinner : Honours g src P inner) : Honours g src P (.mapped f inner)
  | orElse {P : Contract τ} {first : Tail τ α} {later : Later} (hfirst : Honours g src P first)
      (hlater : later.Honours g src P) : Honours g src P (.orElse first later)
  | chained {P : Contract τ} {inner outer : Tail τ α} {chain : Chain α}
      (hinner : Honours g src P inner) (houter : Honours g src (chain.before g src P) outer) :
      Honours g src P (.chained inner outer chain)
  | walking {P : Contract τ} {w : Walk τ α (Tail τ α)} (hrepeats : w.Repeats g)
      (hstart : ∀ depth place, .start depth place ∈ w.stack →
        ∀ o, Gives g src (.items w.item w.info) place w.crumbs o → P o)
      (hvisit : ∀ depth start o tail, .visit depth start o tail ∈ w.stack →
        Honours g src (w.before g src start P) tail) : Honours g src P (.walking w)

/-- A walk only gives what the contract has. -/
structure Walk.Honours (g : Grammar τ α σ) (src : Source τ) (P : Contract τ)
    (w : Walk τ α (Tail τ α)) : Prop where
  repeats : w.Repeats g
  start : ∀ depth place, .start depth place ∈ w.stack →
    ∀ o, Gives g src (.items w.item w.info) place w.crumbs o → P o
  visit : ∀ depth start o tail, .visit depth start o tail ∈ w.stack →
    tail.Honours g src (w.before g src start P)

/-- What a frame may be given. -/
def Frame.before (g : Grammar τ α σ) (src : Source τ) (P : Contract τ) : Frame τ α → Contract τ
  | .map _ | .orElse _ | .chainInner _ _ => P
  | .chainOuter chain => chain.before g src P
  | .item w _ start => w.before g src start P

/-- What a frame has put off only gives what the contract has. -/
def Frame.Honours (g : Grammar τ α σ) (src : Source τ) (P : Contract τ) : Frame τ α → Prop
  | .map _ | .chainOuter _ => True
  | .orElse later => later.Honours g src P
  | .chainInner outer chain => outer.Honours g src (chain.before g src P)
  | .item w _ _ => w.Honours g src P

/-- What the first of some frames may be given, so that the last one gives what the contract
has. -/
def framesBefore (g : Grammar τ α σ) (src : Source τ) (P : Contract τ) :
    List (Frame τ α) → Contract τ
  | [] => P
  | frame :: frames => frame.before g src (framesBefore g src P frames)

/-- What frames have put off honours what they may give. -/
def FramesHonour (g : Grammar τ α σ) (src : Source τ) (P : Contract τ) :
    List (Frame τ α) → Prop
  | [] => True
  | frame :: frames =>
    frame.Honours g src (framesBefore g src P frames) ∧ FramesHonour g src P frames

/-- What is to be done now only gives what the contract has. -/
def Control.Honours (g : Grammar τ α σ) (src : Source τ) (P : Contract τ) : Control τ α → Prop
  | .call r place crumbs => ∀ o, Gives g src (.use r) place crumbs o → P o
  | .follow cell place crumbs =>
    ∀ r o, g.target cell = .rule r → Gives g src (.use r) place crumbs o → P o
  | .continue chain place => ∀ o, Gives g src (.rest chain.rules) place chain.crumbs o → P o
  | .force tail => tail.Honours g src P
  | .walk w => w.Honours g src P
  | .give o tail => P o.plain ∧ tail.Honours g src P
  | .finish | .fail _ => True

/-- A search only gives what the contract has. -/
structure State.Honours (g : Grammar τ α σ) (src : Source τ) (P : Contract τ) (s : State τ α) :
    Prop where
  control : s.control.Honours g src (framesBefore g src P s.frames)
  frames : FramesHonour g src P s.frames

/-- What a step of a search under a contract comes to. A search only waits for a rule that has
to be made. -/
def Progress.Honours (g : Grammar τ α σ) (src : Source τ) (P : Contract τ) :
    Progress τ α → Prop
  | .next s => s.Honours g src P
  | .stream o tail s => P o.plain ∧ (s.goTo (.force tail)).Honours g src P
  | .waiting cell _ => ∃ supplier, g.target cell = .pending supplier
  | .nothing _ | .fault _ | .circular => True

/-! ### Steps -/

variable {P : Contract τ} {s : State τ α} {info : RuleInfo}

namespace State

theorem honours_goTo {control : Control τ α} (hframes : FramesHonour g src P s.frames)
    (hcontrol : control.Honours g src (framesBefore g src P s.frames)) :
    (s.goTo control).Honours g src P := ⟨hcontrol, hframes⟩

theorem honours_push {frame : Frame τ α} {control : Control τ α}
    (hframes : FramesHonour g src P s.frames)
    (hframe : frame.Honours g src (framesBefore g src P s.frames))
    (hcontrol : control.Honours g src (frame.before g src (framesBefore g src P s.frames))) :
    (s.push frame control).Honours g src P := ⟨hcontrol, hframe, hframes⟩

theorem honours_single {o : Outcome τ α} (hframes : FramesHonour g src P s.frames)
    (ho : framesBefore g src P s.frames o.plain) : (s.single o).Honours g src P :=
  honours_goTo hframes ⟨ho, .done⟩

end State

namespace Machine

open State

theorem tryLater_honours {later : Later} (hframes : FramesHonour g src P s.frames)
    (hlater : later.Honours g src (framesBefore g src P s.frames)) :
    (tryLater later s).Honours g src P := by
  unfold tryLater
  split
  · exact honours_goTo hframes (hlater _ (List.mem_cons_self ..))
  · next rule others hothers =>
    rw [Later.Honours, hothers] at hlater
    refine honours_push hframes ?_ (hlater _ (List.mem_cons_self ..))
    exact fun r hr => hlater r (List.mem_cons_of_mem _ hr)

theorem useForm_honours {r : Rule} {form : Form τ α} (hnode : g.node? r = some ⟨info, form⟩)
    (hframes : FramesHonour g src P s.frames)
    (h : ∀ o, Gives g src (.form info form) p crumbs o → framesBefore g src P s.frames o) :
    (useForm src info p crumbs s form).Honours g src P := by
  cases form with
  | terminal accept =>
      simp only [useForm, takeToken]
      split
      · next hnone => exact honours_single hframes (h _ (.unexpectedEnd hnone))
      · next t hsome =>
        split
        · next v haccept =>
          have hframes' : FramesHonour g src P (s.demandAfter p.next).frames := hframes
          exact honours_single hframes' (h _ (.token hsome haccept))
        · next hreject => exact honours_single hframes (h _ (.unexpected hsome hreject))
        · exact honours_goTo hframes trivial
  | epsilon value => exact honours_single hframes (h _ .epsilon)
  | endOfInput value =>
      simp only [useForm, takeEnd]
      split
      · next hnone => exact honours_single hframes (h _ (.ended hnone))
      · next t hsome => exact honours_single hframes (h _ (.expectedEnd hsome))
  | map inner f => exact honours_push hframes trivial fun o ho => h o (.map ho)
  | repetition item collect =>
      refine honours_goTo hframes ⟨⟨r, collect, hnode⟩, ?_, ?_⟩
      · intro depth place hmem o ho
        cases List.mem_singleton.1 hmem
        exact h o (.repetition ho)
      · intro depth start o tail hmem
        cases List.mem_singleton.1 hmem
  | reference cell weak =>
      exact honours_goTo hframes fun r o htarget ho => h o (.reference htarget ho)
  | oneOf first others => exact tryLater_honours hframes fun r hr o ho => h o (.oneOf hr ho)
  | sequence first others build =>
      refine honours_push hframes trivial fun o ho => ⟨?_, ?_⟩
      · exact fun e herror => h _ (.sequence (.stopped ho herror))
      · exact fun hok o' ho' => h o' (.sequence (.goneOn ho hok ho'))

theorem call_honours {r : Rule} (hframes : FramesHonour g src P s.frames)
    (h : ∀ o, Gives g src (.use r) p crumbs o → framesBefore g src P s.frames o) :
    (call g src r p crumbs s).Honours g src P := by
  unfold call
  split
  · trivial
  · next info form hnode =>
    split
    · next hheld =>
      have hcircle : Gives g src (.use r) p crumbs _ := .circle hnode hheld
      exact honours_single hframes (h _ hcircle)
    · next hfresh =>
      rw [Bool.not_eq_true] at hfresh
      exact useForm_honours hnode hframes fun o ho => h o (.entered hnode hfresh ho)

theorem advance_honours {chain : Chain α} (hframes : FramesHonour g src P s.frames)
    (h : ∀ o, Gives g src (.rest chain.rules) p chain.crumbs o →
      framesBefore g src P s.frames o) : (advance chain p s).Honours g src P := by
  unfold advance
  split
  · next hrules =>
    rw [hrules] at h
    split
    · exact honours_single hframes (h _ .nothingLeft)
    · trivial
  · next rule rules hrules =>
    rw [hrules] at h
    refine honours_push hframes trivial fun o ho => ⟨?_, ?_⟩
    · exact fun e herror => h _ (.stopped ho herror)
    · exact fun hok o' ho' => h o' (.goneOn ho hok ho')

theorem force_honours {tail : Tail τ α} (hframes : FramesHonour g src P s.frames)
    (h : tail.Honours g src (framesBefore g src P s.frames)) :
    (force s tail).Honours g src P := by
  cases h with
  | done => exact honours_goTo hframes trivial
  | mapped hinner => exact honours_push hframes trivial hinner
  | orElse hfirst hlater => exact honours_push hframes hlater hfirst
  | chained hinner houter => exact honours_push hframes houter hinner
  | walking hrepeats hstart hvisit => exact honours_goTo hframes ⟨hrepeats, hstart, hvisit⟩

theorem walk_honours {w : Walk τ α (Tail τ α)} (hframes : FramesHonour g src P s.frames)
    (h : w.Honours g src (framesBefore g src P s.frames)) : (walk w s).Honours g src P := by
  unfold walk
  split
  · exact honours_goTo hframes trivial
  · next depth place stack hstack =>
    obtain ⟨hrepeats, hstart, hvisit⟩ := h
    rw [hstack] at hstart hvisit
    have hitems := hstart depth place (List.mem_cons_self ..)
    refine honours_push hframes ⟨hrepeats, ?_, ?_⟩ fun o ho => ⟨⟨place, rfl, ho⟩, ?_, ?_⟩
    · exact fun d q hmem => hstart d q (List.mem_cons_of_mem _ hmem)
    · exact fun d i o t hmem => hvisit d i o t (List.mem_cons_of_mem _ hmem)
    · exact fun e herror => hitems _ (.itemFailed ho herror)
    · intro hok
      split
      · next hempty => exact hitems _ (.itemEmpty ho hok hempty)
      · next hfar => exact ⟨hitems _ (.item ho hok hfar), fun o' ho' =>
          hitems _ (.moreItems ho hok hfar ho')⟩
  · next depth start o tail stack hstack =>
    obtain ⟨hrepeats, hstart, hvisit⟩ := h
    rw [hstack] at hstart hvisit
    refine honours_push hframes ⟨hrepeats, ?_, ?_⟩
      (hvisit depth start o tail (List.mem_cons_self ..))
    · exact fun d q hmem => hstart d q (List.mem_cons_of_mem _ hmem)
    · exact fun d i o t hmem => hvisit d i o t (List.mem_cons_of_mem _ hmem)

theorem plain_error {o : Outcome τ α} {e : ParseError τ} (h : o.result = .error e) :
    o.plain.result = .error e := by
  simp only [Outcome.plain, h, Except.map]

theorem plain_ok {o : Outcome τ α} {v : α} (h : o.result = .ok v) : o.plain.result = .ok () := by
  simp only [Outcome.plain, h, Except.map]

theorem takeItem_honours {w : Walk τ α (Tail τ α)} {depth start : Nat} {o : Outcome τ α}
    {tail : Tail τ α} (hframes : FramesHonour g src P s.frames)
    (hw : w.Honours g src (framesBefore g src P s.frames))
    (ho : w.before g src start (framesBefore g src P s.frames) o.plain)
    (htail : tail.Honours g src (w.before g src start (framesBefore g src P s.frames))) :
    (takeItem w depth start o tail s).Honours g src P := by
  -- the stack with the tail on it still honours the contract
  have hstart : ∀ d q, .start d q ∈ Visit.visit depth start o tail :: w.stack →
      ∀ o, Gives g src (.items w.item w.info) q w.crumbs o → framesBefore g src P s.frames o := by
    intro d q hmem
    exact hw.start d q ((List.mem_cons.1 hmem).resolve_left nofun)
  have hvisit : ∀ d i o' t, .visit d i o' t ∈ Visit.visit depth start o tail :: w.stack →
      t.Honours g src (w.before g src i (framesBefore g src P s.frames)) := by
    intro d i o' t hmem
    rcases List.mem_cons.1 hmem with heq | hmem
    · cases heq
      exact htail
    · exact hw.visit d i o' t hmem
  unfold takeItem
  split
  · next e herror =>
    exact honours_goTo hframes ⟨ho.2.1 e (plain_error herror), .walking hw.repeats hstart hvisit⟩
  · next v hok =>
    have hitem := ho.2.2 (plain_ok hok)
    split
    · next hempty =>
      rw [if_pos (show o.plain.place.consumed = start from hempty)] at hitem
      exact honours_goTo hframes ⟨hitem, .walking hw.repeats hstart hvisit⟩
    · next hfar =>
      rw [if_neg (show ¬ o.plain.place.consumed = start from hfar)] at hitem
      refine honours_goTo hframes ⟨hitem.1, .walking hw.repeats ?_ ?_⟩
      · intro d q hmem
        rcases List.mem_cons.1 hmem with heq | hmem
        · cases heq
          exact hitem.2
        · exact hstart d q hmem
      · intro d i o' t hmem
        exact hvisit d i o' t ((List.mem_cons.1 hmem).resolve_left nofun)

theorem deliver_honours {o : Outcome τ α} {tail : Tail τ α} {frame : Frame τ α}
    (hframes : FramesHonour g src P s.frames)
    (hframe : frame.Honours g src (framesBefore g src P s.frames))
    (ho : frame.before g src (framesBefore g src P s.frames) o.plain)
    (htail : tail.Honours g src (frame.before g src (framesBefore g src P s.frames))) :
    (deliver o tail s frame).Honours g src P := by
  cases frame with
  | map f =>
      simp only [deliver]
      split
      · exact honours_goTo hframes ⟨ho, .mapped htail⟩
      · next v hok =>
        split
        · next w hw =>
          have hplain : (Outcome.success o.place w : Outcome τ α).plain = o.plain := by
            simp only [Outcome.plain, Outcome.success, hok, Except.map]
          exact honours_goTo hframes ⟨hplain ▸ ho, .mapped htail⟩
        · trivial
  | orElse later => exact honours_goTo hframes ⟨ho, .orElse htail hframe⟩
  | chainOuter chain =>
      simp only [deliver]
      split
      · next e herror =>
        exact honours_goTo hframes ⟨ho.1 e (plain_error herror), .chained .done htail⟩
      · next v hok => exact honours_push hframes htail (ho.2 (plain_ok hok))
  | chainInner outer chain => exact honours_goTo hframes ⟨ho, .chained htail hframe⟩
  | item w depth start => exact takeItem_honours hframes hframe ho htail

theorem finish_honours {frame : Frame τ α} (hframes : FramesHonour g src P s.frames)
    (hframe : frame.Honours g src (framesBefore g src P s.frames)) :
    (finish s frame).Honours g src P := by
  cases frame with
  | map f => exact honours_goTo hframes trivial
  | orElse later => exact tryLater_honours hframes hframe
  | chainOuter chain => exact honours_goTo hframes trivial
  | chainInner outer chain => exact honours_push hframes trivial hframe
  | item w depth start => exact honours_goTo hframes hframe

/-- **A step keeps to the contract.** -/
theorem step_honours (h : s.Honours g src P) : (step g src s).Honours g src P := by
  obtain ⟨control, frames, demand, trace⟩ := s
  obtain ⟨hcontrol, hframes⟩ := h
  cases control with
  | call rule place crumbs => exact call_honours hframes hcontrol
  | follow cell place crumbs =>
      unfold step follow
      dsimp only
      split
      · next r htarget => exact honours_goTo hframes fun o ho => hcontrol r o htarget ho
      · trivial
      · next supplier hpending => exact ⟨supplier, hpending⟩
      · trivial
  | «continue» chain place => exact advance_honours hframes hcontrol
  | force tail => exact force_honours hframes hcontrol
  | walk w => exact walk_honours hframes hcontrol
  | give o tail =>
      cases frames with
      | nil => exact ⟨hcontrol.1, hcontrol.2, trivial⟩
      | cons frame frames => exact deliver_honours hframes.2 hframes.1 hcontrol.1 hcontrol.2
  | finish =>
      cases frames with
      | nil => trivial
      | cons frame frames => exact finish_honours hframes.2 hframes.1
  | fail f => trivial

theorem run_honours (h : s.Honours g src P) (n : Nat) : (run g src n s).Honours g src P := by
  induction n generalizing s with
  | zero => exact h
  | succ n ih =>
      have hstep := step_honours h
      unfold run
      split
      · next s' hnext =>
        rw [hnext] at hstep
        exact ih hstep
      · exact hstep

end Machine

/-! ### Walks -/

/-- What comes of a walk under a contract. -/
def Exploration.Heeds (g : Grammar τ α σ) (A : ρ → Prop) : Exploration τ α κ ρ → Prop
  | .answer r _ => A r
  | .waiting cell _ _ => ∃ supplier, g.target cell = .pending supplier
  | .fault _ | .circular | .unfinished => True

theorem explore_heeds {reader : Reader τ α κ ρ} {M : κ → Prop} {A : ρ → Prop} {memory : κ}
    (hreader : reader.KeepsTo (fun o => P o.plain) M A) (steps outcomes : Nat)
    (hmemory : M memory) (hs : s.Honours g src P) :
    (explore g src reader steps outcomes memory s).Heeds g A := by
  induction outcomes generalizing memory s with
  | zero => trivial
  | succ outcomes ih =>
      have hrun := Machine.run_honours hs steps
      unfold explore
      split
      · next o tail s' hstream =>
        rw [hstream] at hrun
        split
        · next r hstop => exact hreader.stop hmemory hrun.1 hstop
        · next memory' hgoOn => exact ih (hreader.goOn hmemory hrun.1 hgoOn) hrun.2
      · split
        · next r hfinish => exact hreader.finish hmemory hfinish
        · trivial
      · trivial
      · next cell s' hwaiting =>
        rw [hwaiting] at hrun
        exact hrun
      · trivial
      · trivial

/-- A search honours the contract that asks for no more than an account. -/
theorem State.honours_calling (g : Grammar τ α σ) (src : Source τ) (r : Rule) (place : Place)
    (trace : Trace) :
    (State.calling r place trace : State τ α).Honours g src (Gives g src (.use r) place .root) :=
  ⟨fun _ ho => ho, trivial⟩

end LazyGrammar

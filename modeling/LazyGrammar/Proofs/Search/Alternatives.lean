import LazyGrammar.Proofs.Search.Scope

/-!
# LazyGrammar.Proofs.Search.Alternatives

**Alternatives that are put off.** A choice tries its first alternative at once and puts off the
others. What has been put off is always what is left of the alternatives of some choice below the
root, from an index on that is in range (`Later.Listed`), and it stays so through tails and frames
(`step_listed`).
-/

namespace LazyGrammar

variable {τ α σ : Type} {g : Grammar τ α σ} {src : Source τ} {root : Rule} {s : State τ α}
  {p p₀ : Place} {crumbs : Crumbs} {tail : Tail τ α}

/-- Later alternatives of a choice below the root: those from some index on. The index is in
range, and the alternative before it has been tried. -/
def Later.Listed (g : Grammar τ α σ) (root : Rule) (later : Later) : Prop :=
  ∃ r info first others index, g.Reaches root r ∧ g.node? r = some ⟨info, .oneOf first others⟩ ∧
    0 < index ∧ index < (first :: others).length ∧
    (first :: others).drop index = later.rule :: later.others

/-- A tail that has put off alternatives of choices only. -/
inductive Tail.Listed (g : Grammar τ α σ) (root : Rule) : Tail τ α → Prop
  | done : Listed g root .done
  | mapped {f : α → Except Fault α} {inner : Tail τ α} (hinner : Listed g root inner) :
      Listed g root (.mapped f inner)
  | orElse {first : Tail τ α} {later : Later} (hfirst : Listed g root first)
      (hlater : later.Listed g root) : Listed g root (.orElse first later)
  | chained {inner outer : Tail τ α} {chain : Chain α} (hinner : Listed g root inner)
      (houter : Listed g root outer) : Listed g root (.chained inner outer chain)
  | walking {w : Walk τ α (Tail τ α)}
      (hvisit : ∀ depth start o tail, .visit depth start o tail ∈ w.stack → Listed g root tail) :
      Listed g root (.walking w)

/-- A walk that has put off alternatives of choices only. -/
def Walk.Listed (g : Grammar τ α σ) (root : Rule) (w : Walk τ α (Tail τ α)) : Prop :=
  ∀ depth start o tail, .visit depth start o tail ∈ w.stack → tail.Listed g root

/-- A frame that has put off alternatives of choices only. -/
def Frame.Listed (g : Grammar τ α σ) (root : Rule) : Frame τ α → Prop
  | .map _ | .chainOuter _ => True
  | .orElse later => later.Listed g root
  | .chainInner outer _ => outer.Listed g root
  | .item w _ _ => w.Listed g root

/-- What is to be done now has put off alternatives of choices only. -/
def Control.Listed (g : Grammar τ α σ) (root : Rule) : Control τ α → Prop
  | .call .. | .follow .. | .continue .. | .finish | .fail _ => True
  | .force tail | .give _ tail => tail.Listed g root
  | .walk w => w.Listed g root

/-- A search that has put off alternatives of choices only. -/
structure State.Listed (g : Grammar τ α σ) (root : Rule) (s : State τ α) : Prop where
  control : s.control.Listed g root
  frames : ∀ frame ∈ s.frames, frame.Listed g root

/-- Whatever comes of a step has put off alternatives of choices only. -/
def Progress.Listed (g : Grammar τ α σ) (root : Rule) : Progress τ α → Prop
  | .next s | .waiting _ s => s.Listed g root
  | .stream _ tail s => (s.goTo (.force tail)).Listed g root
  | .nothing _ | .fault _ | .circular => True

/-! ### Steps -/

/-- After one of the alternatives that are left come those after it. -/
theorem Later.Listed.next {later : Later} {rule : Rule} {others : List Rule}
    (h : later.Listed g root) (hothers : later.others = rule :: others) :
    ({ later with rule, others } : Later).Listed g root := by
  obtain ⟨r, info, first, rest, index, hreach, hnode, -, -, hdrop⟩ := h
  have hdrop' : (first :: rest).drop (index + 1) = rule :: others := by
    rw [← List.tail_drop, hdrop, hothers, List.tail_cons]
  have hlt : index + 1 < (first :: rest).length := by
    refine Nat.lt_of_not_le fun hle => ?_
    rw [List.drop_eq_nil_of_le hle] at hdrop'
    cases hdrop'
  exact ⟨r, info, first, rest, index + 1, hreach, hnode, Nat.succ_pos _, hlt, hdrop'⟩

namespace State

theorem listed_goTo {control : Control τ α} (hframes : ∀ frame ∈ s.frames, frame.Listed g root)
    (hcontrol : control.Listed g root) : (s.goTo control).Listed g root := ⟨hcontrol, hframes⟩

theorem listed_push {frame : Frame τ α} {control : Control τ α}
    (hframes : ∀ frame ∈ s.frames, frame.Listed g root) (hframe : frame.Listed g root)
    (hcontrol : control.Listed g root) : (s.push frame control).Listed g root :=
  ⟨hcontrol, List.forall_mem_cons.2 ⟨hframe, hframes⟩⟩

theorem listed_single {o : Outcome τ α} (hframes : ∀ frame ∈ s.frames, frame.Listed g root) :
    (s.single o).Listed g root := listed_goTo hframes .done

end State

namespace Machine

open State

variable {o : Outcome τ α}

theorem tryLater_listed {later : Later} (hframes : ∀ frame ∈ s.frames, frame.Listed g root)
    (hlater : ∀ rule others, later.others = rule :: others →
      ({ later with rule, others } : Later).Listed g root) : (tryLater later s).Listed g root := by
  unfold tryLater
  split
  · exact listed_goTo hframes trivial
  · next rule others hothers => exact listed_push hframes (hlater rule others hothers) trivial

/-- A choice puts off the alternatives after its first one. -/
theorem useForm_listed {r : Rule} {info : RuleInfo} {form : Form τ α} (hreach : g.Reaches root r)
    (hnode : g.node? r = some ⟨info, form⟩) (hframes : ∀ frame ∈ s.frames, frame.Listed g root) :
    (useForm src info p crumbs s form).Listed g root := by
  cases form with
  | terminal accept =>
      simp only [useForm, takeToken]
      split
      · exact listed_single hframes
      · split
        · have hframes' : ∀ frame ∈ (s.demandAfter p.next).frames, frame.Listed g root := hframes
          exact listed_single hframes'
        · exact listed_single hframes
        · exact listed_goTo hframes trivial
  | epsilon value => exact listed_single hframes
  | endOfInput value =>
      simp only [useForm, takeEnd]
      split <;> exact listed_single hframes
  | map inner f => exact listed_push hframes trivial trivial
  | repetition item collect =>
      refine listed_goTo hframes fun depth start o tail hmem => ?_
      cases List.mem_singleton.1 hmem
  | reference cell weak => exact listed_goTo hframes trivial
  | oneOf first others =>
      refine tryLater_listed hframes fun rule rest hothers => ?_
      cases hothers
      exact ⟨r, info, first, rule :: rest, 1, hreach, hnode, Nat.one_pos,
        by simp, rfl⟩
  | sequence first others build => exact listed_push hframes trivial trivial

theorem force_listed (hframes : ∀ frame ∈ s.frames, frame.Listed g root)
    (htail : tail.Listed g root) : (force s tail).Listed g root := by
  cases htail with
  | done => exact listed_goTo hframes trivial
  | mapped hinner => exact listed_push hframes trivial hinner
  | orElse hfirst hlater => exact listed_push hframes hlater hfirst
  | chained hinner houter => exact listed_push hframes houter hinner
  | walking hvisit => exact listed_goTo hframes hvisit

theorem walk_listed {w : Walk τ α (Tail τ α)} (hframes : ∀ frame ∈ s.frames, frame.Listed g root)
    (hw : w.Listed g root) : (walk w s).Listed g root := by
  have hrest : ∀ visit stack, w.stack = visit :: stack →
      ({ w with stack } : Walk τ α (Tail τ α)).Listed g root := by
    intro visit stack hstack d i o' t hmem
    exact hw d i o' t (hstack ▸ List.mem_cons_of_mem _ hmem)
  unfold walk
  split
  · exact listed_goTo hframes trivial
  · next hstack => exact listed_push hframes (hrest _ _ hstack) trivial
  · next depth start o tail stack hstack =>
    exact listed_push hframes (hrest _ _ hstack)
      (hw depth start o tail (hstack ▸ List.mem_cons_self ..))

theorem takeItem_listed {w : Walk τ α (Tail τ α)} {depth start : Nat}
    (hframes : ∀ frame ∈ s.frames, frame.Listed g root) (hw : w.Listed g root)
    (htail : tail.Listed g root) : (takeItem w depth start o tail s).Listed g root := by
  have hvisit : ∀ d i o' t, .visit d i o' t ∈ Visit.visit depth start o tail :: w.stack →
      t.Listed g root := by
    intro d i o' t hmem
    rcases List.mem_cons.1 hmem with heq | hmem
    · cases heq
      exact htail
    · exact hw d i o' t hmem
  unfold takeItem
  split
  · exact listed_goTo hframes (.walking hvisit)
  · split
    · exact listed_goTo hframes (.walking hvisit)
    · refine listed_goTo hframes (.walking fun d i o' t hmem => ?_)
      exact hvisit d i o' t ((List.mem_cons.1 hmem).resolve_left nofun)

theorem deliver_listed {frame : Frame τ α} (hframes : ∀ frame ∈ s.frames, frame.Listed g root)
    (hframe : frame.Listed g root) (htail : tail.Listed g root) :
    (deliver o tail s frame).Listed g root := by
  cases frame with
  | map f =>
      simp only [deliver]
      split
      · exact listed_goTo hframes (.mapped htail)
      · split
        · exact listed_goTo hframes (.mapped htail)
        · trivial
  | orElse later => exact listed_goTo hframes (.orElse htail hframe)
  | chainOuter chain =>
      simp only [deliver]
      split
      · exact listed_goTo hframes (.chained .done htail)
      · exact listed_push hframes htail trivial
  | chainInner outer chain => exact listed_goTo hframes (.chained htail hframe)
  | item w depth start => exact takeItem_listed hframes hframe htail

theorem finish_listed {frame : Frame τ α} (hframes : ∀ frame ∈ s.frames, frame.Listed g root)
    (hframe : frame.Listed g root) : (finish s frame).Listed g root := by
  cases frame with
  | map f => exact listed_goTo hframes trivial
  | orElse later => exact tryLater_listed hframes fun _ _ hothers => hframe.next hothers
  | chainOuter chain => exact listed_goTo hframes trivial
  | chainInner outer chain => exact listed_push hframes trivial hframe
  | item w depth start => exact listed_goTo hframes hframe

/-- **A step only puts off alternatives that are left of a choice.** -/
theorem step_listed (hs : s.Within (Scope.below g root) src p₀) (h : s.Listed g root) :
    (step g src s).Listed g root := by
  obtain ⟨control, frames, demand, trace⟩ := s
  obtain ⟨hcontrol, hframes⟩ := h
  cases control with
  | call r place crumbs =>
      obtain ⟨_, ⟨-, hreach, -⟩, -⟩ := hs
      simp only [step, call]
      split
      · trivial
      · next info form hnode =>
        split
        · exact listed_single hframes
        · exact useForm_listed hreach hnode hframes
  | follow cell place crumbs =>
      simp only [step, follow]
      split
      · exact listed_goTo hframes trivial
      · trivial
      · exact ⟨trivial, hframes⟩
      · trivial
  | «continue» chain place =>
      simp only [step, advance]
      split
      · split
        · exact listed_single hframes
        · trivial
      · exact listed_push hframes trivial trivial
  | force tail => exact force_listed hframes hcontrol
  | walk w => exact walk_listed hframes hcontrol
  | give o tail =>
      cases frames with
      | nil => exact listed_goTo hframes hcontrol
      | cons frame frames =>
          obtain ⟨hframe, hframes⟩ := List.forall_mem_cons.1 hframes
          exact deliver_listed hframes hframe hcontrol
  | finish =>
      cases frames with
      | nil => trivial
      | cons frame frames =>
          obtain ⟨hframe, hframes⟩ := List.forall_mem_cons.1 hframes
          exact finish_listed hframes hframe
  | fail f => trivial

end Machine

end LazyGrammar

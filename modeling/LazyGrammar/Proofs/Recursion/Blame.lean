import LazyGrammar.Proofs.Analysis.Survey
import LazyGrammar.Proofs.Search.Account
import LazyGrammar.Proofs.Search.Fidelity

/-!
# LazyGrammar.Proofs.Recursion.Blame

**A failure that blames the grammar is right.** When a rule is entered again where it was
entered before, every call between the two was made at that position. So each rule on the way may
be entered where the one before it is, and the way is a circle of the leftmost relation.

Design points:

* The argument is an induction on accounts (`Gives`). A rule that succeeds without taking a
  token can match nothing (`Gives.skips`), and the rules on a trail at the current position lead
  to whatever is entered there next (`Crumbs.LeadTo`).
* What can match nothing depends on where a search stands: at the end of the input, the rule
  for the end of the input succeeds without taking a token. The analysis does not count it, so
  it only speaks for positions where a token is left.
-/

namespace LazyGrammar

variable {τ α σ κ ρ : Type} {g : Grammar τ α σ} {src : Source τ} {s : Survey} {root r : Rule}
  {task : Task τ α} {place : Place} {crumbs : Crumbs} {o : Outcome τ Unit} {shapes : Shapes}
  {known : RuleId → Prop}

/-! ### Searches of surveyed rules -/

/-- The part of a grammar that a survey has been through. -/
def Scope.surveyed (g : Grammar τ α σ) (s : Survey) : Scope where
  rule r := g.Has r ∧ g.idOf r ∈ s.ids
  cell cell := ∃ r info weak, g.node? r = some ⟨info, .reference cell weak⟩ ∧ info.id ∈ s.ids
  site _ _ := True

theorem Scope.surveyed_kept (hg : g.Closed) (h : s.Covers g root) (src : Source τ) :
    (Scope.surveyed g s).Kept g src where
  part hrule hnode hpart :=
    ⟨hg.part _ _ hnode _ hpart, h.part hnode (g.idOf_eq hnode ▸ hrule.2) hpart⟩
  reference hrule hnode := ⟨_, _, _, hnode, g.idOf_eq hnode ▸ hrule.2⟩
  target hcell htarget := by
    obtain ⟨r, info, weak, hnode, hid⟩ := hcell
    have hids : g.idOf r ∈ s.ids := g.idOf_eq hnode ▸ hid
    exact ⟨hg.target _ _ htarget, h.of_uses hids (.target hnode htarget)⟩
  enter _ _ _ _ := trivial
  leads _ _ := trivial

/-- A search from a surveyed rule has nothing to wait for, so all that it answers is made of
outcomes that have an account. -/
theorem Survey.Covers.explores (h : s.Covers g root) (hg : g.Closed) (hr : g.Has r)
    (hid : g.idOf r ∈ s.ids) {reader : Reader τ α κ ρ} {M : κ → Prop} {A : ρ → Prop}
    {memory : κ} {trace : Trace} {answer : ρ}
    (hreader : reader.KeepsTo (fun o => Gives g src (.use r) place .root o.plain) M A)
    (hmemory : M memory)
    (hexplores : Explores src reader g memory (.calling r place trace) answer) : A answer := by
  cases hexplores with
  | @answer _ _ _ _ _ steps outcomes hanswer =>
      have hheeds := explore_heeds hreader steps outcomes hmemory
        (State.honours_calling g src r place trace)
      rw [hanswer] at hheeds
      exact hheeds
  | @waiting _ _ _ _ _ _ _ cell steps outcomes hwaiting _ =>
      have hheeds := explore_heeds hreader steps outcomes hmemory
        (State.honours_calling g src r place trace)
      rw [hwaiting] at hheeds
      obtain ⟨supplier, hpending⟩ := hheeds
      have hstart : (State.calling r place trace : State τ α).Within (Scope.surveyed g s) src
          place :=
        ⟨place, ⟨.refl, ⟨hr, hid⟩, trivial⟩, .refl⟩
      have hany : reader.Keeps src place (fun _ => True) (fun _ => True) := by
        constructor <;> intros <;> trivial
      have hkeeps : (explore g src reader steps outcomes memory (.calling r place trace)).Keeps
          (Scope.surveyed g s) src place (fun _ => True) (fun _ => True) :=
        explore_keeps (Scope.surveyed_kept hg h src) hany steps outcomes trivial hstart
      rw [hwaiting] at hkeeps
      obtain ⟨_, _, hcontrol⟩ := explore_waiting hwaiting
      obtain ⟨_, hfollow, -⟩ := hkeeps.2
      rw [hcontrol] at hfollow
      obtain ⟨-, ⟨r', info, weak, hnode, hid'⟩, -⟩ := hfollow
      rcases h.target hnode hid' with ⟨_, htarget, -⟩ | hreleased
      · rw [hpending] at htarget
        cases htarget
      · rw [g.target_of_released hreleased] at hpending
        cases hpending

/-! ### Ways -/

namespace Source.Leads

variable {p q : Place}

theorem eq_or_consumed_lt (h : src.Leads p q) : q = p ∨ p.consumed < q.consumed := by
  rcases h.eq_or_token with heq | ⟨-, hlt⟩
  · exact Or.inl heq
  · have hsum := h.consumed_add_next
    right
    omega

theorem antisymm (h : src.Leads p q) (h' : src.Leads q p) : q = p := by
  rcases h.eq_or_consumed_lt with heq | hlt
  · exact heq
  · exact absurd h'.consumed_le (Nat.not_le.2 hlt)

end Source.Leads

/-! ### Rules that match nothing -/

/-- The shapes of surveyed rules for a search that stands at a place. -/
def Survey.shapesAt (s : Survey) (g : Grammar τ α σ) (src : Source τ) (place : Place) : Shapes :=
  g.shapes (· ∈ s.ids) (src.token place.next).isNone

/-- All rules of a task have been surveyed. -/
def Task.Surveyed (g : Grammar τ α σ) (s : Survey) : Task τ α → Prop
  | .use r => g.idOf r ∈ s.ids
  | .form info what => info.id ∈ s.ids ∧ ∃ r, g.node? r = some ⟨info, what⟩
  | .rest rules => ∀ r ∈ rules, g.idOf r ∈ s.ids
  | .items item info =>
    g.idOf item ∈ s.ids ∧ ∃ r collect, g.node? r = some ⟨info, .repetition item collect⟩

/-- A task can succeed without taking a token, by the shapes. -/
def Task.Skips (g : Grammar τ α σ) (shapes : Shapes) : Task τ α → Prop
  | .use r => shapes.Nullable (g.idOf r)
  | .form info _ => shapes.Nullable info.id
  | .rest rules => ∀ r ∈ rules, shapes.Nullable (g.idOf r)
  | .items _ _ => False

theorem Task.Surveyed.shape {info : RuleInfo} {form : Form τ α} {ended : Bool} {shape : Shape}
    (h : Task.Surveyed g s (.form info form)) (hshape : form.shape g ended = some shape) :
    g.shapes (· ∈ s.ids) ended info.id shape := by
  obtain ⟨hid, r, hnode⟩ := h
  exact ⟨hid, r, _, hnode, rfl, hshape⟩

theorem Task.Surveyed.part (hs : s.Covers g root) {info : RuleInfo} {form : Form τ α}
    (h : Task.Surveyed g s (.form info form)) {r' : Rule} (hpart : r' ∈ form.parts) :
    g.idOf r' ∈ s.ids := by
  obtain ⟨hid, r, hnode⟩ := h
  exact hs.part hnode hid hpart

theorem Task.Surveyed.target (hs : s.Covers g root) {info : RuleInfo} {cell : CellId}
    {weak : Bool} (h : Task.Surveyed g s (.form info (.reference cell weak))) {r' : Rule}
    (htarget : g.target cell = .rule r') : g.idOf r' ∈ s.ids := by
  obtain ⟨hid, r, hnode⟩ := h
  exact hs.of_uses (g.idOf_eq hnode ▸ hid) (.target hnode htarget)

theorem Task.Surveyed.items (hs : s.Covers g root) {info : RuleInfo} {item : Rule}
    {collect : List α → α} (h : (Task.form info (.repetition item collect)).Surveyed g s) :
    (Task.items item info : Task τ α).Surveyed g s := by
  obtain ⟨hid, r, hnode⟩ := h
  exact ⟨hs.part hnode hid (List.mem_cons_self ..), r, collect, hnode⟩

theorem Task.Surveyed.entered {node : Node τ α} (hnode : g.node? r = some node)
    (h : (Task.use r : Task τ α).Surveyed g s) :
    Task.Surveyed g s (.form node.info node.form) :=
  ⟨g.idOf_eq hnode ▸ h, r, hnode⟩

/-- **A rule that succeeds without taking a token can match nothing.** -/
theorem Gives.skips (hs : s.Covers g root) (h : Gives g src task place crumbs o)
    (hsurveyed : task.Surveyed g s) (hok : o.result = .ok ()) (hplace : o.place = place) :
    task.Skips g (s.shapesAt g src place) := by
  induction h with
  | circle => cases hok
  | unexpected => cases hok
  | unexpectedEnd => cases hok
  | expectedEnd => cases hok
  | stopped => cases hok
  | itemFailed => cases hok
  | itemEmpty => cases hok
  | entered hnode hfresh hform ih =>
      have hnullable := ih (hsurveyed.entered hnode) hok hplace
      simp only [Task.Skips, g.idOf_eq hnode] at hnullable ⊢
      exact hnullable
  | token htoken haccept =>
      exact absurd (congrArg Place.consumed hplace) (Nat.succ_ne_self _)
  | epsilon => exact .leaf (hsurveyed.shape rfl)
  | ended hend =>
      refine .leaf (hsurveyed.shape ?_)
      rw [hend]
      rfl
  | map hinner ih =>
      refine .chain (hsurveyed.shape rfl) ?_
      intro child hchild
      cases List.mem_singleton.1 hchild
      exact ih (hsurveyed.part hs (List.mem_cons_self ..)) hok hplace
  | repetition hitems ih => exact (ih (hsurveyed.items hs) hok hplace).elim
  | reference htarget hr ih =>
      refine .chain (hsurveyed.shape (Form.shape_reference htarget _ _)) ?_
      intro child hchild
      cases List.mem_singleton.1 hchild
      exact ih (hsurveyed.target hs htarget) hok hplace
  | oneOf hmem hr ih =>
      refine .choice (hsurveyed.shape rfl) (List.mem_map_of_mem hmem) ?_
      exact ih (hsurveyed.part hs hmem) hok hplace
  | sequence hrest ih =>
      refine .chain (hsurveyed.shape rfl) ?_
      have hall := ih (fun r hr => hsurveyed.part hs hr) hok hplace
      intro child hchild
      obtain ⟨r, hr, rfl⟩ := List.mem_map.1 hchild
      exact hall r hr
  | nothingLeft => exact nofun
  | goneOn hrule hok' hrest ih ih' =>
      -- the first rule and the rest of the sequence end where they start
      have hback : src.Leads _ _ := hplace ▸ hrest.fits.way
      have hfirst := hrule.fits.way.antisymm hback
      intro r hr
      rcases List.mem_cons.1 hr with rfl | hr
      · exact ih (hsurveyed _ (List.mem_cons_self ..)) hok' hfirst
      · have hall := ih' (fun r hr => hsurveyed r (List.mem_cons_of_mem _ hr)) hok
          (hplace.trans hfirst.symm)
        rw [hfirst] at hall
        exact hall r hr
  | item hitem hok' hfar ih => exact hfar (congrArg Place.consumed hplace)
  | moreItems hitem hok' hfar hmore ih ih' =>
      have hback : src.Leads _ _ := hplace ▸ hmore.fits.way
      exact hfar (congrArg Place.consumed (hitem.fits.way.antisymm hback))

/-! ### Rules on the trail -/

/-- A task may enter a rule before it takes a token, by the shapes. -/
def Task.Opens (g : Grammar τ α σ) (shapes : Shapes) : Task τ α → RuleId → Prop
  | .use r, id => id = g.idOf r
  | .form info _, id => shapes.Leftmost info.id id
  | .rest rules, id => ∃ before r after, rules = before ++ r :: after ∧
      (∀ r' ∈ before, shapes.Nullable (g.idOf r')) ∧ id = g.idOf r
  | .items item _, id => id = g.idOf item

/-- Positions on a trail are at most that of a place, and what was entered there leads to
something. -/
def Crumbs.LeadTo (crumbs : Crumbs) (place : Place) (P : RuleId → Prop) : Prop :=
  ∀ id c, (id, c) ∈ crumbs.entries → c ≤ place.consumed ∧ (c = place.consumed → P id)

/-- The rules on the trail lead to whatever a task may enter first. -/
def Task.Follows (g : Grammar τ α σ) (shapes : Shapes) (task : Task τ α) (place : Place)
    (crumbs : Crumbs) : Prop :=
  crumbs.LeadTo place fun id =>
    ∀ first, task.Opens g shapes first → Relation.TransGen shapes.Leftmost id first

theorem Crumbs.mem_entries_of_holds {id : RuleId} {c : Nat} (h : crumbs.holds id c = true) :
    (id, c) ∈ crumbs.entries := by
  induction crumbs with
  | root => cases h
  | entered rule position depth before ih =>
      simp only [Crumbs.holds] at h
      split at h
      · cases h
      · split at h
        · next hsame =>
          obtain ⟨rfl, rfl⟩ := hsame
          exact List.mem_cons_self ..
        · exact List.mem_cons_of_mem _ (ih h)

theorem Crumbs.LeadTo.mono {P Q : RuleId → Prop} (h : crumbs.LeadTo place P)
    (hle : ∀ id, P id → Q id) : crumbs.LeadTo place Q :=
  fun id c hmem => (h id c hmem).imp_right fun hP hc => hle id (hP hc)

/-- Further on nothing has been entered yet. -/
theorem Crumbs.LeadTo.of_lt {P Q : RuleId → Prop} {q : Place} (h : crumbs.LeadTo place P)
    (hlt : place.consumed < q.consumed) : crumbs.LeadTo q Q := by
  intro id c hmem
  have hle := (h id c hmem).1
  exact ⟨by omega, fun heq => by omega⟩

/-- What a task may enter first, another one may. -/
theorem Task.Follows.of_opens {task' : Task τ α} (h : task.Follows g shapes place crumbs)
    (hopens : ∀ first, task'.Opens g shapes first → task.Opens g shapes first) :
    task'.Follows g shapes place crumbs :=
  h.mono fun _ hfirst first hopen => hfirst first (hopens first hopen)

theorem Task.Follows.entered {node : Node τ α} (hnode : g.node? r = some node)
    (h : (Task.use r : Task τ α).Follows g shapes place crumbs) :
    (Task.form node.info node.form).Follows g shapes place
      (crumbs.enter node.info.id place.consumed) := by
  intro id c hmem
  rcases List.mem_cons.1 hmem with heq | hmem
  · cases heq
    exact ⟨Nat.le_refl _, fun _ first hfirst => .single hfirst⟩
  · refine (h id c hmem).imp_right ?_
    intro hlead hc first hfirst
    have hrule := hlead hc _ rfl
    rw [g.idOf_eq hnode] at hrule
    exact hrule.tail hfirst

/-- What the rest of a sequence may enter, the sequence may if the rest is all of it. -/
theorem Task.Surveyed.opens_sequence {info : RuleInfo} {first : Rule} {others : List Rule}
    {build : List α → Except Fault α}
    (h : (Task.form info (.sequence first others build) : Task τ α).Surveyed g s) {id : RuleId}
    (hopens : (Task.rest (first :: others) : Task τ α).Opens g (s.shapesAt g src place) id) :
    (Task.form info (.sequence first others build) : Task τ α).Opens g (s.shapesAt g src place)
      id := by
  obtain ⟨before, r, after, heq, hbefore, rfl⟩ := hopens
  have hchain : s.shapesAt g src place info.id
      (.chain (before.map g.idOf ++ g.idOf r :: after.map g.idOf)) := by
    refine h.shape ?_
    simp only [Form.shape, heq, List.map_append, List.map_cons]
  refine .chain hchain ?_
  intro other hother
  obtain ⟨r', hr', rfl⟩ := List.mem_map.1 hother
  exact hbefore r' hr'

/-- The rest of a sequence goes on where a rule has ended, which may be where it started. -/
theorem Task.Follows.rest {rules : List Rule} {q : Place}
    (h : (Task.rest (r :: rules) : Task τ α).Follows g (s.shapesAt g src place) place crumbs)
    (hway : src.Leads place q)
    (hskips : q = place → (s.shapesAt g src place).Nullable (g.idOf r)) :
    (Task.rest rules : Task τ α).Follows g (s.shapesAt g src q) q crumbs := by
  rcases hway.eq_or_consumed_lt with rfl | hlt
  · refine h.of_opens ?_
    rintro first ⟨before, r', after, rfl, hbefore, rfl⟩
    refine ⟨r :: before, r', after, rfl, ?_, rfl⟩
    intro other hother
    rcases List.mem_cons.1 hother with rfl | hother
    · exact hskips rfl
    · exact hbefore other hother
  · exact Crumbs.LeadTo.of_lt h hlt

/-! ### Failures that blame the grammar -/

/-- By the shapes, a rule may be entered again where it is, or it repeats an item that can
match nothing. -/
def Grammar.Blames (g : Grammar τ α σ) (shapes : Shapes) (info : RuleInfo) : Prop :=
  shapes.Circular info.id ∨ ∃ r item collect,
    g.node? r = some ⟨info, .repetition item collect⟩ ∧ shapes.Nullable (g.idOf item)

theorem Grammar.Blames.mono {shapes' : Shapes} {info : RuleInfo}
    (hle : ∀ id shape, shapes id shape → shapes' id shape) (h : g.Blames shapes info) :
    g.Blames shapes' info := by
  rcases h with hcircular | ⟨r, item, collect, hnode, hnullable⟩
  · exact Or.inl (hcircular.mono hle)
  · exact Or.inr ⟨r, item, collect, hnode, hnullable.mono hle⟩

/-- **Whoever is blamed is to blame**, by the shapes for the place of the failure. -/
theorem Gives.blames (hs : s.Covers g root) (h : Gives g src task place crumbs o)
    (hsurveyed : task.Surveyed g s)
    (hfollows : task.Follows g (s.shapesAt g src place) place crumbs)
    {c : Nat} {info : RuleInfo} (herror : o.result = .error ⟨c, .leftRecursion info⟩) :
    g.Blames (s.shapesAt g src o.place) info := by
  induction h with
  | token => cases herror
  | unexpected => cases herror
  | unexpectedEnd => cases herror
  | epsilon => cases herror
  | ended => cases herror
  | expectedEnd => cases herror
  | nothingLeft => cases herror
  | item => cases herror
  | circle hnode hheld =>
      cases herror
      have hlead := (hfollows _ _ (Crumbs.mem_entries_of_holds hheld)).2 rfl _ rfl
      rw [g.idOf_eq hnode] at hlead
      exact Or.inl hlead
  | entered hnode hfresh hform ih =>
      exact ih (hsurveyed.entered hnode) (hfollows.entered hnode) herror
  | map hinner ih =>
      refine ih (hsurveyed.part hs (List.mem_cons_self ..)) (hfollows.of_opens ?_) herror
      rintro first rfl
      exact .first (hsurveyed.shape rfl)
  | repetition hitems ih =>
      refine ih (hsurveyed.items hs) (hfollows.of_opens ?_) herror
      rintro first rfl
      exact .first (hsurveyed.shape rfl)
  | reference htarget hr ih =>
      refine ih (hsurveyed.target hs htarget) (hfollows.of_opens ?_) herror
      rintro first rfl
      exact .first (hsurveyed.shape (Form.shape_reference htarget _ _))
  | oneOf hmem hr ih =>
      refine ih (hsurveyed.part hs hmem) (hfollows.of_opens ?_) herror
      rintro first rfl
      exact .choice (hsurveyed.shape rfl) (List.mem_map_of_mem hmem)
  | sequence hrest ih =>
      refine ih (fun r hr => hsurveyed.part hs hr) (hfollows.of_opens ?_) herror
      exact fun first hopens => hsurveyed.opens_sequence hopens
  | stopped hrule herror' ih =>
      cases herror
      refine ih (hsurveyed _ (List.mem_cons_self ..)) (hfollows.of_opens ?_) herror'
      rintro first rfl
      exact ⟨[], _, _, rfl, nofun, rfl⟩
  | goneOn hrule hok hrest ih ih' =>
      refine ih' (fun r hr => hsurveyed r (List.mem_cons_of_mem _ hr)) ?_ herror
      refine hfollows.rest hrule.fits.way fun heq => ?_
      exact hrule.skips hs (hsurveyed _ (List.mem_cons_self ..)) hok heq
  | itemFailed hitem herror' ih =>
      cases herror
      exact ih hsurveyed.1 hfollows herror'
  | itemEmpty hitem hok hempty ih =>
      cases herror
      have hplace := (hitem.fits.way.eq_or_consumed_lt).resolve_right (by omega)
      obtain ⟨hid, r, collect, hnode⟩ := hsurveyed
      have hnullable := hitem.skips hs hid hok hplace
      rw [← hplace] at hnullable
      exact Or.inr ⟨r, _, collect, hnode, hnullable⟩
  | moreItems hitem hok hfar hmore ih ih' =>
      refine ih' hsurveyed (hfollows.of_lt ?_) herror
      have hle := hitem.fits.way.consumed_le
      omega

/-! ### Reports -/

variable {tokens : List τ} {a : Analysis} {info : RuleInfo} {c : Nat}

theorem Task.follows_root (g : Grammar τ α σ) (shapes : Shapes) (task : Task τ α) (place : Place) :
    task.Follows g shapes place .root := nofun

/-- Where an outcome of a search from the start of a list ends. -/
theorem Gives.place_eq (h : Gives g (Source.ofList tokens) task ⟨0, 0⟩ crumbs o) :
    o.place.consumed = o.place.next ∧ o.place.next ≤ tokens.length := by
  have hplace := h.fits.way.place_eq
  rw [Nat.zero_add] at hplace
  exact hplace

namespace Survey.Covers

/-- Before the end of the input, the shapes are those of the survey. -/
theorem shapesAt_le (hs : s.Covers g root) (hlt : place.next < tokens.length) (id : RuleId)
    (shape : Shape) (h : s.shapesAt g (Source.ofList tokens) place id shape) :
    s.shapes id shape := by
  have htoken : ((Source.ofList tokens).token place.next).isNone = false := by
    rw [Source.token_ofList, List.getElem?_eq_getElem hlt]
    rfl
  rw [shapesAt, htoken] at h
  exact hs.shapes_of_shapes h

/-- What the shapes of a survey blame, the analysis does. -/
theorem reported (hs : s.Covers g root) (h : g.Blames s.shapes info) :
    (∃ p, (Analysis.ofSurvey s).properties? info.id = some p ∧ p.leftRecursive = true) ∨
      ∃ r item collect p, g.node? r = some ⟨info, .repetition item collect⟩ ∧
        (Analysis.ofSurvey s).properties? (g.idOf item) = some p ∧ p.nullable = true := by
  rcases h with hcircular | ⟨r, item, collect, hnode, hnullable⟩
  · obtain ⟨p, hp, -, hrecursive⟩ :=
      Analysis.exists_properties hs.closed (hs.closed.mem_of_circular hcircular)
    exact Or.inl ⟨p, hp, hrecursive.2 hcircular⟩
  · obtain ⟨p, hp, hnullable', -⟩ :=
      Analysis.exists_properties hs.closed (hs.closed.mem_of_nullable hnullable)
    exact Or.inr ⟨r, item, collect, p, hnode, hp, hnullable'.2 hnullable⟩

/-- Where the analysis reports nothing and nothing nullable is repeated, nobody is to blame. -/
theorem not_blames (hs : s.Covers g root) (hnone : (Analysis.ofSurvey s).leftRecursiveRules = [])
    (hrepeat : ∀ r info item collect p, g.node? r = some ⟨info, .repetition item collect⟩ →
      (Analysis.ofSurvey s).properties? (g.idOf item) = some p → p.nullable = false) :
    ¬ g.Blames s.shapes info := by
  intro h
  rcases hs.reported h with ⟨p, hp, hrecursive⟩ | ⟨r, item, collect, p, hnode, hp, hnullable⟩
  · obtain ⟨hid, -, hcircular⟩ := (Analysis.properties?_ofSurvey hs.closed).1 hp
    exact (Analysis.leftRecursiveRules_eq_nil hs.closed).1 hnone _ hid (hcircular.1 hrecursive)
  · rw [hrepeat r info item collect p hnode hp] at hnullable
    cases hnullable

/-- At the end of the input, the shapes are those that count it as nothing. -/
theorem shapesAt_end (hs : s.Covers g root) (hend : place.next = tokens.length) :
    s.shapesAt g (Source.ofList tokens) place = g.shapes (Analysis.ofSurvey s).Knows true := by
  have hknows : (· ∈ s.ids) = (Analysis.ofSurvey s).Knows :=
    funext fun id => propext (Analysis.knows_ofSurvey hs.closed).symm
  rw [Survey.shapesAt, hknows, hend, Source.token_ofList, List.getElem?_eq_none (Nat.le_refl _)]
  rfl

/-- Without a rule for the end of the input, it does not matter whether that counts as
nothing. -/
theorem shapes_le_of_no_end (hs : s.Covers g root)
    (hnoEnd : ∀ r info value, g.node? r = some ⟨info, .endOfInput value⟩ →
      ¬ (Analysis.ofSurvey s).Knows info.id) (id : RuleId) (shape : Shape)
    (h : g.shapes (Analysis.ofSurvey s).Knows true id shape) : s.shapes id shape := by
  obtain ⟨hknows, r, ⟨info, form⟩, hnode, rfl, hform⟩ := h
  rw [Form.shape_eq_of_ne_endOfInput] at hform
  · exact hs.shapes_of_form hnode ((Analysis.knows_ofSurvey hs.closed).1 hknows) hform
  · rintro value rfl
    exact hnoEnd r info value hnode hknows

end Survey.Covers

/-- **Blame is right wherever input remains.** A failure that blames a rule before the end of the
input names one that the analysis has found to be left-recursive, or the repetition of an item
that the analysis has found to be nullable. -/
theorem blame_is_right (haccepts : g.Accepts root a) (tokens : List τ) {limit : Option Nat}
    {trace : Trace} {found : Array (Sighting τ α)}
    (hexplores : Explores (Source.ofList tokens) collect g ⟨#[], limit⟩
      (.calling root ⟨0, 0⟩ trace) found) :
    ∀ x ∈ found, ∀ c info, x.outcome.result = .error ⟨c, .leftRecursion info⟩ →
      c < tokens.length →
      (∃ p, a.properties? info.id = some p ∧ p.leftRecursive = true) ∨
        ∃ r item collect p, g.node? r = some ⟨info, .repetition item collect⟩ ∧
          a.properties? (g.idOf item) = some p ∧ p.nullable = true := by
  obtain ⟨s, rfl, hs, hroot⟩ := haccepts.covers
  have hgiven := hs.explores haccepts.consistent.closed hroot hs.root collect_keepsTo (by simp)
    hexplores
  intro x hx c info herror hlt
  have hx := hgiven x hx
  have herror := Machine.plain_error herror
  have hconsumed : c = x.outcome.plain.place.consumed := (hx.fits.error _ herror).1
  have hnext : x.outcome.plain.place.next < tokens.length := by
    have hplace := hx.place_eq
    omega
  have hblames := hx.blames hs hs.root (Task.follows_root _ _ _ _) herror
  exact hs.reported (hblames.mono (hs.shapesAt_le hnext))

/-- The rule that starts again at once is left-recursive, and is blamed. -/
theorem stuttering_blame_is_right :
    ∃ a, Grammar.stuttering.Accepts ⟨5⟩ a ∧
      ∃ found : Array (Sighting Char Nat),
        Explores (Source.ofList ['x']) collect Grammar.stuttering ⟨#[], none⟩
          (.calling ⟨5⟩ ⟨0, 0⟩ .silent) found ∧
        ∃ x ∈ found, x.outcome.result = .error ⟨0, .leftRecursion ⟨0, .recursive, none⟩⟩ ∧
          ((∃ p, a.properties? 0 = some p ∧ p.leftRecursive = true) ∨
            ∃ r item collect p,
              Grammar.stuttering.node? r
                = some ⟨⟨0, .recursive, none⟩, .repetition item collect⟩ ∧
              a.properties? (Grammar.stuttering.idOf item) = some p ∧ p.nullable = true) := by
  obtain ⟨a, haccepts⟩ := Grammar.stuttering_accepts
  obtain ⟨found, t, hanswer, hfirst⟩ : ∃ (found : Array (Sighting Char Nat)) (t : State Char Nat),
      explore Grammar.stuttering (Source.ofList ['x']) collect 99 10 ⟨#[], none⟩
        (.calling ⟨5⟩ ⟨0, 0⟩ .silent) = .answer found t ∧
      found.toList.head?.map (·.outcome)
        = some (.failure ⟨0, .leftRecursion ⟨0, .recursive, none⟩⟩ 0) :=
    ⟨_, _, rfl, rfl⟩
  have hexplores := Explores.answer hanswer
  obtain ⟨x, hx, hresult⟩ := Option.map_eq_some_iff.1 hfirst
  have hmem : x ∈ found := Array.mem_toList_iff.1 (List.mem_of_head? hx)
  have hresult := congrArg Outcome.result hresult
  exact ⟨a, haccepts, found, hexplores, x, hmem, hresult,
    blame_is_right haccepts ['x'] hexplores x hmem _ _ hresult
      Nat.zero_lt_one⟩

/-- At the end of the input a failure may blame a rule that the analysis does not, for the rule
for the end of the input then succeeds without taking a token. -/
theorem left_recursion_only_at_end (haccepts : g.Accepts root a) (hnone : a.leftRecursiveRules = [])
    (hrepeat : ∀ r info item collect p, g.node? r = some ⟨info, .repetition item collect⟩ →
      a.properties? (g.idOf item) = some p → p.nullable = false)
    (tokens : List τ) {trace : Trace} {es : ParseErrors τ}
    (hexplores : Explores (Source.ofList tokens) (verdict : Reader τ α _ _) g none
      (.calling root ⟨0, 0⟩ trace) (.error es)) :
    ∀ e ∈ es.toList, ∀ info, e.reason = .leftRecursion info →
      e.consumed = tokens.length ∧ g.Blames (g.shapes a.Knows true) info ∧
        ∃ r info' value, g.node? r = some ⟨info', .endOfInput value⟩ ∧ a.Knows info'.id := by
  obtain ⟨s, rfl, hs, hroot⟩ := haccepts.covers
  have hgiven := hs.explores haccepts.consistent.closed hroot hs.root
    (verdict_keepsTo (Q := fun e => ∃ o : Outcome τ Unit,
      Gives g (Source.ofList tokens) (.use root) ⟨0, 0⟩ .root o ∧ o.result = .error e)
      fun o e ho herror => ⟨o.plain, ho, Machine.plain_error herror⟩) (by simp) hexplores
  rintro ⟨c, reason⟩ he info rfl
  obtain ⟨o, ho, herror⟩ := hgiven es rfl _ he
  have hblames := ho.blames hs hs.root (Task.follows_root _ _ _ _) herror
  have hplace := ho.place_eq
  have hconsumed : c = o.place.consumed := (ho.fits.error _ herror).1
  have hinnocent : ¬ g.Blames s.shapes info := hs.not_blames hnone hrepeat
  have hend : o.place.next = tokens.length := by
    refine Nat.le_antisymm hplace.2 (Nat.not_lt.1 fun hlt => hinnocent ?_)
    exact hblames.mono (hs.shapesAt_le hlt)
  rw [hs.shapesAt_end hend] at hblames
  refine ⟨(hconsumed.trans hplace.1).trans hend, hblames, ?_⟩
  by_contra hnot
  refine hinnocent (hblames.mono (hs.shapes_le_of_no_end ?_))
  exact fun r info' value hnode hknows => hnot ⟨r, info', value, hnode, hknows⟩

namespace Grammar

theorem lingering_no_repetition (r item : Rule) (info : RuleInfo) (collect : List Nat → Nat) :
    lingering.node? r ≠ some ⟨info, .repetition item collect⟩ := by
  intro hnode
  have hmem := Array.mem_toList_iff.2 (Array.mem_of_getElem? hnode)
  simp [lingering, again, turn] at hmem

/-- The end of the input keeps the rule that starts again there from being circular, as far as
the survey can tell. -/
theorem lingering_not_circular (hs : s.Covers lingering ⟨5⟩) (id : RuleId) :
    ¬ s.shapes.Circular id := by
  have hshapes := again_shapes hs rfl rfl
  have hguard : ¬ s.shapes.Nullable 1 := by
    intro h
    cases h with
    | leaf h => simp [hshapes] at h
    | choice h => simp [hshapes] at h
    | chain h => simp [hshapes] at h
  -- a leftmost step leads to a rule that was made earlier, but for the step from the root
  refine Shapes.not_circular_of_rank (fun id => if id = 0 then 5 else id) ?_ id
  intro id child h
  cases h with
  | choice h hchild =>
      obtain ⟨rfl, rfl⟩ : id = 4 ∧ _ = [2, 3] := by simpa [hshapes] using h
      rcases List.mem_cons.1 hchild with rfl | hchild
      · decide
      · cases List.mem_singleton.1 hchild
        decide
  | @chain before after h hbefore =>
      have hcases : id = 0 ∧ before ++ child :: after = [4] ∨
          id = 2 ∧ before ++ child :: after = [1, 0] := by simpa [hshapes] using h
      rcases hcases with ⟨rfl, heq⟩ | ⟨rfl, heq⟩
      · have hchild : child ∈ [4] := heq ▸ List.mem_append_right _ (List.mem_cons_self ..)
        cases List.mem_singleton.1 hchild
        decide
      · cases before with
        | nil =>
            cases heq
            decide
        | cons other before =>
            have hother : other = 1 := (List.cons.inj heq).1
            exact absurd (hbefore other (List.mem_cons_self ..)) (hother ▸ hguard)

theorem lingering_leftRecursiveRules (haccepts : lingering.Accepts ⟨5⟩ a) :
    a.leftRecursiveRules = [] := by
  obtain ⟨s, rfl, hs, -⟩ := haccepts.covers
  exact (Analysis.leftRecursiveRules_eq_nil hs.closed).2 fun id _ =>
    lingering_not_circular hs id

/-- The parse of no token at all. -/
theorem lingering_answer : Explores (Source.ofList []) (verdict : Reader Char Nat _ _) lingering
    none (.calling ⟨5⟩ ⟨0, 0⟩ .silent)
    (.error (.single ⟨0, .leftRecursion ⟨0, .recursive, none⟩⟩)) := by
  obtain ⟨t, hanswer⟩ : ∃ t : State Char Nat,
      explore lingering (Source.ofList []) verdict 99 10 none (.calling ⟨5⟩ ⟨0, 0⟩ .silent)
        = .answer (.error (.single ⟨0, .leftRecursion ⟨0, .recursive, none⟩⟩)) t :=
    ⟨_, rfl⟩
  exact .answer hanswer

end Grammar

/-- **A parse may blame a rule although the analysis reports none**: nothing is repeated, and yet
the parse of no token at all ends with a failure that blames the grammar. -/
theorem lingering_left_recursion :
    ∃ a, Grammar.lingering.Accepts ⟨5⟩ a ∧ a.leftRecursiveRules = [] ∧
      (∀ r info item collect p,
        Grammar.lingering.node? r = some ⟨info, .repetition item collect⟩ →
        a.properties? (Grammar.lingering.idOf item) = some p → p.nullable = false) ∧
      ∃ es : ParseErrors Char,
        Explores (Source.ofList []) (verdict : Reader Char Nat _ _) Grammar.lingering none
          (.calling ⟨5⟩ ⟨0, 0⟩ .silent) (.error es) ∧ es.isLeftRecursion = true := by
  obtain ⟨a, haccepts⟩ := Grammar.lingering_accepts
  refine ⟨a, haccepts, Grammar.lingering_leftRecursiveRules haccepts, ?_,
    _, Grammar.lingering_answer, rfl⟩
  intro r info item collect p hnode
  exact absurd hnode (Grammar.lingering_no_repetition r item info collect)

/-- That failure stands at the end of the input, where the rule is circular. -/
theorem lingering_left_recursion_only_at_end :
    ∃ a, Grammar.lingering.Accepts ⟨5⟩ a ∧ a.leftRecursiveRules = [] ∧
      (∀ r info item collect p,
        Grammar.lingering.node? r = some ⟨info, .repetition item collect⟩ →
        a.properties? (Grammar.lingering.idOf item) = some p → p.nullable = false) ∧
      Explores (Source.ofList []) (verdict : Reader Char Nat _ _) Grammar.lingering none
        (.calling ⟨5⟩ ⟨0, 0⟩ .silent)
        (.error (.single ⟨0, .leftRecursion ⟨0, .recursive, none⟩⟩)) ∧
      Grammar.lingering.Blames (Grammar.lingering.shapes a.Knows true) ⟨0, .recursive, none⟩ ∧
      ∃ r info value, Grammar.lingering.node? r = some ⟨info, .endOfInput value⟩ ∧
        a.Knows info.id := by
  obtain ⟨a, haccepts⟩ := Grammar.lingering_accepts
  have hnone := Grammar.lingering_leftRecursiveRules haccepts
  have hrepeat : ∀ r info item collect p,
      Grammar.lingering.node? r = some ⟨info, .repetition item collect⟩ →
      a.properties? (Grammar.lingering.idOf item) = some p → p.nullable = false := by
    intro r info item collect p hnode
    exact absurd hnode (Grammar.lingering_no_repetition r item info collect)
  have hatEnd := left_recursion_only_at_end haccepts hnone hrepeat []
    Grammar.lingering_answer _ (List.mem_cons_self ..) _ rfl
  exact ⟨a, haccepts, hnone, hrepeat, Grammar.lingering_answer, hatEnd.2⟩

end LazyGrammar

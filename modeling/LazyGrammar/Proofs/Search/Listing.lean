import Mathlib.Order.Filter.AtTopBot.Basic
import Mathlib.Order.Filter.Finite
import LazyGrammar.Proofs.Search.Lists

/-!
# LazyGrammar.Proofs.Search.Listing

**The list of a call.** A program puts the list of a rule's outcomes together from the lists of
the rules that it uses: by `map` for a mapped rule, by `concat` for alternatives, by `flatMap`
for a sequence, and for a repetition by a walk whose state waits in the tail of every run
(`Grammar.program`). In every complete and total grammar it makes the list of what the call
delivers (`lists_call`).

Design points:

* A program is finite and rules go round in circles, so the program of a call is given for a
  number of rounds. Of enough rounds, more make no difference to what is listed.
* A walk is the same for tails and for the addresses of links (`Walk.take`). Where the machine
  keeps a tail on its stack, the program keeps a link (`Legs`).
-/

namespace LazyGrammar

variable {τ α σ : Type}

open LazyList (Memory Program Evaluates)

/-! ### Programs -/

/-- What an item at a depth gives that was tried at position `start`, and the walk afterwards,
with what stands for its other outcomes on top. -/
def Walk.take {ρ : Type} (w : Walk τ α ρ) (depth start : Nat) (o : Outcome τ α) (tail : ρ) :
    Outcome τ α × Walk τ α ρ :=
  let stack := .visit depth start o tail :: w.stack
  match o.result with
  | .error e => (.failure e o.place.next, { w with stack })
  | .ok v =>
    if o.place.consumed = start then
      (.failure ⟨start, .leftRecursion w.info⟩ o.place.next, { w with stack })
    else
      let values := w.values.take depth ++ [v]
      (.success o.place (w.collect values),
        { w with values, stack := .start (depth + 1) o.place :: stack })

/-- The machine takes items in this way. -/
theorem Machine.takeItem_eq (w : Walk τ α (Tail τ α)) (depth start : Nat) (o : Outcome τ α)
    (tail : Tail τ α) (s : State τ α) :
    Machine.takeItem w depth start o tail s
      = s.goTo (.give (w.take depth start o tail).1 (.walking (w.take depth start o tail).2)) := by
  cases hresult : o.result with
  | error e => simp only [Machine.takeItem, Walk.take, hresult]
  | ok v =>
      by_cases hstart : o.place.consumed = start
      · simp only [Machine.takeItem, Walk.take, hresult, if_pos hstart]
      · simp only [Machine.takeItem, Walk.take, hresult, if_neg hstart]

/-- Goes on with the list of an item: its first outcome is taken, and the link waits with the
walk that is left. -/
def Walk.goOn (again : Walk τ α Nat → Program (Outcome τ α) .list) (w : Walk τ α Nat)
    (depth start : Nat) : LazyList → Program (Outcome τ α) .list
  | .nil => again w
  | .link b => .look (.link b) fun
    | some (o, _) =>
      .new (w.take depth start o b).1 (fun _ => again (w.take depth start o b).2) .give
    | none => .raise .undefinedRule

/-- The runs of a walk, with so many rounds at most. -/
def Walk.program (calls : Rule → Place → Crumbs → Program (Outcome τ α) .list) :
    Nat → Walk τ α Nat → Program (Outcome τ α) .list
  | 0, _ => .raise .undefinedRule
  | n + 1, w =>
    match w.stack with
    | [] => .give .nil
    | .start depth place :: stack =>
      (calls w.item place w.crumbs).andThen
        (Walk.goOn (Walk.program calls n) { w with stack } depth place.consumed)
    | .visit depth start _ b :: stack =>
      .tail b (Walk.goOn (Walk.program calls n) { w with stack } depth start)

/-- Alternatives. -/
def choiceProgram (calls : Rule → Program (Outcome τ α) .list) :
    Rule → List Rule → Program (Outcome τ α) .list
  | rule, [] => calls rule
  | rule, next :: others =>
    (calls rule).andThen (.concat · (choiceProgram calls next others) .give)

/-- The rest of a sequence, after some values. -/
def sequenceProgram (calls : Rule → Place → Program (Outcome τ α) .list)
    (build : List α → Except Fault α) :
    List Rule → List α → Place → Program (Outcome τ α) .list
  | [], values, place =>
    match build values with
    | .ok v => .cons (.success place v) .nil .give
    | .error f => .raise f
  | rule :: rules, values, place =>
    (calls rule place).andThen (.flatMap (Outcome.continued fun v q =>
      sequenceProgram calls build rules (values ++ [v]) q) · .give)

/-- A form, given its parts. -/
def Form.program (g : Grammar τ α σ) (src : Source τ) (rounds : Nat)
    (calls : Rule → Place → Crumbs → Program (Outcome τ α) .list) (info : RuleInfo)
    (place : Place) (crumbs : Crumbs) : Form τ α → Program (Outcome τ α) .list
  | .terminal accept =>
    match src.token place.next with
    | none => .cons (.failure ⟨place.consumed, .unexpectedEnd⟩ place.next) .nil .give
    | some t =>
      match accept t with
      | .ok (some v) => .cons (.success place.advance v) .nil .give
      | .ok none => .cons (.failure ⟨place.consumed, .unexpected t⟩ place.next) .nil .give
      | .error f => .raise f
  | .epsilon value => .cons (.success place value) .nil .give
  | .endOfInput value =>
    match src.token place.next with
    | none => .cons (.success place value) .nil .give
    | some t => .cons (.failure ⟨place.consumed, .expectedEnd t⟩ place.next) .nil .give
  | .map inner f => (calls inner place crumbs).andThen (.map (Outcome.mapped f) · .give)
  | .repetition item collect =>
    Walk.program calls rounds ⟨item, info, crumbs, collect, [], [.start 0 place]⟩
  | .reference cell _ =>
    match g.target cell with
    | .rule r => calls r place crumbs
    | _ => .raise .undefinedRule
  | .oneOf first others => choiceProgram (fun r => calls r place crumbs) first others
  | .sequence first others build =>
    sequenceProgram (fun r q => calls r q crumbs) build (first :: others) [] place

/-- The program of a call, with so many rounds at most. -/
def Grammar.program (g : Grammar τ α σ) (src : Source τ) :
    Nat → Rule → Place → Crumbs → Program (Outcome τ α) .list
  | 0, _, _, _ => .raise .undefinedRule
  | n + 1, rule, place, crumbs =>
    match g.node? rule with
    | none => .raise .undefinedRule
    | some ⟨info, form⟩ =>
      if crumbs.holds info.id place.consumed then .cons (.circle place info) .nil .give
      else
        form.program g src n (g.program src n) info place
          (crumbs.enter info.id place.consumed)

variable {g : Grammar τ α σ} {src : Source τ} {tokens : List τ} {go : State τ α → State τ α}
  {p : Program (Outcome τ α) .list} {m m' : Memory (Outcome τ α)} {F F' : Set Nat}
  {os items : List (Outcome τ α)} {o : Outcome τ α} {tail : Tail τ α} {place start : Place}
  {b : Nat}

/-! ### Walks -/

section Walks

variable {attempt : Place → List (Outcome τ α)} {item : Rule} {info : RuleInfo} {crumbs : Crumbs}
  {collect : List α → α} {calls : Rule → Place → Crumbs → Program (Outcome τ α) .list}
  {values values' known : List α} {stack : List (Visit τ α (Tail τ α))}
  {legs : List (Visit τ α Nat)}

/-- What the stack of a walk has still to give, and the stack of the program that lists it. The
links of each frame are its own. -/
inductive Legs (g : Grammar τ α σ) (tokens : List τ) (attempt : Place → List (Outcome τ α))
    (info : RuleInfo) (collect : List α → α) (p : Place) (m : Memory (Outcome τ α)) :
    List α → List (Visit τ α (Tail τ α)) → List (Visit τ α Nat) → Set Nat →
    List (Outcome τ α) → Prop
  | nil {values : List α} : Legs g tokens attempt info collect p m values [] [] ∅ []
  | start {values values' : List α} {stack : List (Visit τ α (Tail τ α))}
      {legs : List (Visit τ α Nat)} {F : Set Nat} {os : List (Outcome τ α)} {place : Place}
      (way : (Source.ofList tokens).Leads p place) (hvalues : values' <+: values)
      (rest : Legs g tokens attempt info collect p m values' stack legs F os) :
      Legs g tokens attempt info collect p m values (.start values.length place :: stack)
        (.start values.length place :: legs) F
        (runs tokens attempt info collect values place ++ os)
  | visit {values values' : List α} {stack : List (Visit τ α (Tail τ α))}
      {legs : List (Visit τ α Nat)} {F F' : Set Nat} {os items : List (Outcome τ α)}
      {start b : Nat} {o : Outcome τ α} {tail : Tail τ α}
      (htail : ∀ m', m.Keeps F' m' → Lists g (Source.ofList tokens)
        (State.goTo · (.force tail)) (.tail b .give) m' F' items)
      (hitems : ∀ o ∈ items, o.Fits (Source.ofList tokens) p) (hbelow : ∀ a ∈ F', a < m.fresh)
      (hdisjoint : ∀ a ∈ F', a ∉ F) (hvalues : values' <+: values)
      (rest : Legs g tokens attempt info collect p m values' stack legs F os) :
      Legs g tokens attempt info collect p m values (.visit values.length start o tail :: stack)
        (.visit values.length start o b :: legs) (F' ∪ F)
        (items.flatMap (Outcome.followedBy (runsAfter tokens attempt info collect values start))
          ++ os)

namespace Legs

theorem lt_fresh (h : Legs g tokens attempt info collect place m values stack legs F os) :
    ∀ a ∈ F, a < m.fresh := by
  induction h with
  | nil => exact nofun
  | start _ _ _ ih => exact ih
  | visit _ _ hbelow _ _ _ ih =>
      intro a ha
      rcases ha with ha | ha
      · exact hbelow a ha
      · exact ih a ha

theorem later (h : Legs g tokens attempt info collect place m values stack legs F os)
    (hkeeps : m.Keeps F m') :
    Legs g tokens attempt info collect place m' values stack legs F os := by
  induction h with
  | nil => exact .nil
  | start way hvalues _ ih => exact .start way hvalues (ih hkeeps)
  | visit htail hitems hbelow hdisjoint hvalues _ ih =>
      have hmine := hkeeps.mono Set.subset_union_left
      exact .visit (fun m'' hm'' => htail m'' (hmine.trans hm'')) hitems
        (fun a ha => Nat.lt_of_lt_of_le (hbelow a ha) hkeeps.fresh) hdisjoint hvalues
        (ih (hkeeps.mono Set.subset_union_right))

end Legs

/-- Taking an outcome of an item leaves a walk with the outcomes that follow, of which there is
one less. -/
theorem Legs.exists_take (item : Rule) (crumbs : Crumbs) {begun : Nat}
    (hvisit : Legs g tokens attempt info collect place m values
      (.visit values.length begun o tail :: stack) (.visit values.length begun o b :: legs) F os)
    (hknown : values <+: known) (ho : o.Fits (Source.ofList tokens) place) :
    ∃ o' os' values' known' stack' legs',
      o.followedBy (runsAfter tokens attempt info collect values begun) ++ os = o' :: os' ∧
      (⟨item, info, crumbs, collect, known, stack⟩ : Walk τ α (Tail τ α)).take
          values.length begun o tail = (o', ⟨item, info, crumbs, collect, known', stack'⟩) ∧
      (⟨item, info, crumbs, collect, known, legs⟩ : Walk τ α Nat).take
          values.length begun o b = (o', ⟨item, info, crumbs, collect, known', legs'⟩) ∧
      Legs g tokens attempt info collect place m values' stack' legs' F os' ∧
      values' <+: known' ∧ stack'.length ≤ stack.length + 2 := by
  cases hresult : o.result with
  | error e =>
      rw [Outcome.followedBy_error _ hresult]
      refine ⟨_, os, values, known, _, _, rfl, ?_, ?_, hvisit, hknown, Nat.le_succ _⟩ <;>
        simp only [Walk.take, hresult]
  | ok v =>
      rw [Outcome.followedBy_ok _ hresult, runsAfter]
      by_cases hbegun : o.place.consumed = begun
      · rw [if_pos hbegun]
        refine ⟨_, os, values, known, _, _, rfl, ?_, ?_, hvisit, hknown, Nat.le_succ _⟩ <;>
          simp only [Walk.take, hresult, Outcome.circle, hbegun, if_true]
      · -- a run, and then, before anything else on the stack, the longer ones
        rw [if_neg hbegun]
        have hstart := Legs.start ho.way (List.prefix_append values [v]) hvisit
        rw [List.length_append] at hstart
        have htake : known.take values.length = values := (List.prefix_iff_eq_take.1 hknown).symm
        refine ⟨_, _, _, _, _, _, rfl, ?_, ?_, hstart, List.prefix_refl _, Nat.le_refl _⟩ <;>
          simp only [Walk.take, hresult, if_neg hbegun, htake] <;> rfl

/-- A walk lists what the outcomes of an item lead to and then what its stack has to give, if
walks with one round less do so. -/
theorem lists_item {n begun : Nat}
    (hless : ∀ {values known : List α} {stack : List (Visit τ α (Tail τ α))}
      {legs : List (Visit τ α Nat)} {m : Memory (Outcome τ α)} {F : Set Nat}
      {os : List (Outcome τ α)}, 2 * os.length + stack.length < n →
      Legs g tokens attempt info collect place m values stack legs F os → values <+: known →
      Lists g (Source.ofList tokens)
        (State.goTo · (.walk ⟨item, info, crumbs, collect, known, stack⟩))
        (Walk.program calls n ⟨item, info, crumbs, collect, known, legs⟩) m F os)
    (hn : 2 * (items.flatMap (Outcome.followedBy
      (runsAfter tokens attempt info collect values begun)) ++ os).length + stack.length < n)
    (rest : Legs g tokens attempt info collect place m values' stack legs F' os)
    (hvalues : values' <+: values) (hknown : values <+: known)
    (hitems : ∀ o ∈ items, o.Fits (Source.ofList tokens) place)
    (hdisjoint : ∀ a ∈ F, a ∉ F')
    (h : Lists g (Source.ofList tokens) go p m F items) :
    Lists g (Source.ofList tokens)
      (under (.item ⟨item, info, crumbs, collect, known, stack⟩ values.length begun) go)
      (p.andThen (Walk.goOn (Walk.program calls n) ⟨item, info, crumbs, collect, known, legs⟩
        values.length begun)) m (F ∪ F')
      (items.flatMap (Outcome.followedBy (runsAfter tokens attempt info collect values begun))
        ++ os) := by
  cases items with
  | nil =>
      obtain ⟨hcomes, m', hnil, hkept⟩ := h
      have hstack := hless hn (rest.later (hkept.apart rest.lt_fresh hdisjoint))
        (hvalues.trans hknown)
      refine .becomes (Comes.finish hcomes) (hstack.after ?_ hkept.widen ?_)
      · exact fun list m'' heval => LazyList.evaluates_andThen.2 ⟨_, _, hnil, heval⟩
      · exact fun a ha => .inl (.inr ha)
  | cons o items =>
      obtain ⟨tail, b, m', F₁, hcomes, hmakes, hrest⟩ := h
      have hkept := hmakes.kept.apart rest.lt_fresh hdisjoint
      have hvisit : Legs g tokens attempt info collect place m' values
          (.visit values.length begun o tail :: stack) (.visit values.length begun o b :: legs)
          (F₁ ∪ F') _ :=
        .visit hrest (fun o ho => hitems o (List.mem_cons_of_mem _ ho)) hmakes.below
          (hmakes.apart rest.lt_fresh hdisjoint) hvalues (rest.later hkept)
      obtain ⟨o', os', values', known', stack', legs', hos, htail, hlink, hlegs, hknown', hstack⟩ :=
        hvisit.exists_take item crumbs hknown (hitems o (List.mem_cons_self ..))
      rw [List.flatMap_cons, List.append_assoc, hos] at hn ⊢
      rw [List.length_cons] at hn
      have hagain : ∀ m'', m'.Keeps (F₁ ∪ F') m'' → Lists g (Source.ofList tokens)
          (State.goTo · (.force (.walking ⟨item, info, crumbs, collect, known', stack'⟩)))
          (Walk.program calls n ⟨item, info, crumbs, collect, known', legs'⟩) m'' (F₁ ∪ F') os' :=
        fun m'' hm'' => .becomes (.of_step fun _ => rfl)
          (hless (by omega) (hlegs.later hm'') hknown')
      have hlook : m'.look (.link b) = some (o, m'.isForced b) := by
        rw [Memory.look, hmakes.head, Option.map_some]
      refine .becomes (hcomes.deliver fun s => ?_)
        (.give hmakes.kept.widen ?_ hmakes.used_union hlegs.lt_fresh hagain)
      · rw [Machine.deliver, Machine.takeItem_eq, htail]
      · refine LazyList.evaluates_andThen.2 ⟨_, _, hmakes.evaluates, .go rfl ?_⟩
        rw [hlook]
        dsimp only
        rw [hlink]
        exact .go rfl (.done _ _)

/-- **The program of a walk lists what the walk has to give.** An outcome takes a round for the
item that is tried and one for what it leaves, and so does every frame. -/
theorem lists_walk (hattempt : ∀ q, ∀ o ∈ attempt q, o.Fits (Source.ofList tokens) q)
    (hitem : ∀ q m, (Source.ofList tokens).Leads place q → Lists g (Source.ofList tokens)
      (State.goTo · (.call item q crumbs)) (calls item q crumbs) m ∅ (attempt q)) {n : Nat}
    (hn : 2 * os.length + stack.length < n)
    (h : Legs g tokens attempt info collect place m values stack legs F os)
    (hknown : values <+: known) :
    Lists g (Source.ofList tokens)
      (State.goTo · (.walk ⟨item, info, crumbs, collect, known, stack⟩))
      (Walk.program calls n ⟨item, info, crumbs, collect, known, legs⟩) m F os := by
  induction n generalizing values known stack legs m F os with
  | zero => exact absurd hn (Nat.not_lt_zero _)
  | succ n ih =>
      cases h with
      | nil =>
          exact .becomes (.of_step fun _ => rfl) ⟨Comes.goTo .finish, m, .done _ _, .refl _ _⟩
      | @start _ values' stack legs _ os q way hvalues rest =>
          rw [runs_eq hattempt] at hn ⊢
          rw [List.length_cons] at hn
          have hitems : ∀ o ∈ attempt q, o.Fits (Source.ofList tokens) place :=
            fun o ho => (hattempt q o ho).of_leads way
          have hlists := lists_item ih (Nat.lt_of_succ_lt_succ hn) rest hvalues hknown hitems
            (fun _ ha => absurd ha (Set.notMem_empty _)) (hitem q m way)
          rw [Set.empty_union] at hlists
          exact .becomes (.of_step fun _ => rfl) hlists
      | visit htail hitems hbelow hdisjoint hvalues rest =>
          rw [List.length_cons] at hn
          have hlists := lists_item ih (Nat.lt_of_succ_lt_succ hn) rest hvalues hknown hitems
            hdisjoint (htail m (.refl m _))
          exact .becomes (.of_step fun _ => rfl)
            (hlists.congr fun _ _ => LazyList.evaluates_tail_andThen.1)

end Walks

/-! ### Forms and calls -/

section Calls

variable {use : Rule → Place → List (Outcome τ α)} {crumbs : Crumbs}

theorem lists_choice {calls : Rule → Program (Outcome τ α) .list} {first : Rule}
    {others : List Rule}
    (huse : ∀ r ∈ first :: others, ∀ m,
      Lists g src (State.goTo · (.call r place crumbs)) (calls r) m ∅ (use r place))
    (m : Memory (Outcome τ α)) :
    Lists g src (Machine.tryLater ⟨first, others, place, crumbs⟩ ·)
      (choiceProgram calls first others) m ∅ ((first :: others).flatMap fun r => use r place) := by
  induction others generalizing first m with
  | nil =>
      rw [List.flatMap_singleton]
      exact huse first (List.mem_cons_self ..) m
  | cons second others ih =>
      rw [List.flatMap_cons]
      exact .orElse (ih fun r hr => huse r (List.mem_cons_of_mem _ hr))
        (huse first (List.mem_cons_self ..) m)

/-- The program of the rest of a sequence lists its outcomes. -/
theorem lists_continue {calls : Rule → Place → Program (Outcome τ α) .list}
    {build : List α → Except Fault α} {n : Nat}
    (hfits : ∀ r q, ∀ o ∈ use r q, o.Fits (Source.ofList tokens) q)
    (hbuild : ∀ vs, vs.length = n → ∃ w, build vs = .ok w) {rules : List Rule}
    (huse : ∀ r ∈ rules, ∀ q, (Source.ofList tokens).Leads start q → ∀ m,
      Lists g (Source.ofList tokens) (State.goTo · (.call r q crumbs)) (calls r q) m ∅ (use r q))
    {values : List α} (hlength : values.length + rules.length = n)
    (way : (Source.ofList tokens).Leads start place) (m : Memory (Outcome τ α)) :
    Lists g (Source.ofList tokens)
      (State.goTo · (.continue ⟨rules, values, crumbs, build⟩ place))
      (sequenceProgram calls build rules values place) m ∅
      (sequenceOutcomes use build rules values place) := by
  induction rules generalizing values place m with
  | nil =>
      obtain ⟨w, hw⟩ := hbuild values hlength
      rw [sequenceOutcomes, sequenceProgram, hw, Outcome.ofValue]
      refine .becomes (.of_step fun s => ?_) (.single m)
      simp only [Machine.step, Machine.advance, State.goTo, hw]
      rfl
  | cons rule rules ih =>
      refine .becomes (.of_step fun _ => rfl) (.flatMap (hfits rule place) ?_
        (huse rule (List.mem_cons_self ..) place way m))
      intro v q m' way'
      refine ih (fun r hr => huse r (List.mem_cons_of_mem _ hr)) ?_ (way.trans way') m'
      simp only [List.length_append, List.length_cons, List.length_nil] at hlength ⊢
      omega

/-- The program of a form lists its outcomes if those of the rules that it uses do. -/
theorem lists_form {calls : Rule → Place → Crumbs → Program (Outcome τ α) .list} {r : Rule}
    {info : RuleInfo} {form : Form τ α} {rounds : Nat}
    (hnode : g.node? r = some ⟨info, form⟩) (hcomplete : g.Complete r) (htotal : g.Total r)
    (hfits : ∀ r q, ∀ o ∈ use r q, o.Fits (Source.ofList tokens) q)
    (huse : ∀ r' q, g.Uses r r' → (Source.ofList tokens).Leads place q → ∀ m,
      Lists g (Source.ofList tokens) (State.goTo · (.call r' q crumbs)) (calls r' q crumbs) m ∅
        (use r' q))
    (hrounds : 2 * (form.outcomes g tokens info use place).length + 1 < rounds)
    (m : Memory (Outcome τ α)) :
    Lists g (Source.ofList tokens)
      (Machine.useForm (Source.ofList tokens) info place crumbs · form)
      (form.program g (Source.ofList tokens) rounds calls info place crumbs) m ∅
      (form.outcomes g tokens info use place) := by
  have hform := htotal.form hnode
  cases form with
  | terminal accept =>
      simp only [Machine.useForm, Machine.takeToken, Form.outcomes, Form.program,
        Source.token_ofList]
      cases tokens[place.next]? with
      | none => exact .single m
      | some t =>
          dsimp only
          obtain ⟨value, haccept⟩ := hform t
          rw [haccept]
          cases value with
          | none => exact .single m
          | some v =>
              have hdemand : Becomes g (Source.ofList tokens)
                  (fun s => (s.demandAfter place.next).single (.success place.advance v))
                  (State.single · (.success place.advance v)) :=
                fun s => ⟨s.demandAfter place.next, rfl, .refl⟩
              exact .becomes hdemand (.single m)
  | epsilon value => exact .single m
  | endOfInput value =>
      simp only [Machine.useForm, Machine.takeEnd, Form.outcomes, Form.program,
        Source.token_ofList]
      cases tokens[place.next]? with
      | none => exact .single m
      | some t => exact .single m
  | map inner f =>
      exact .map hform (hfits inner place)
        (huse inner place (.part hnode (List.mem_cons_self ..)) .refl m)
  | repetition item collect =>
      have hitem : g.Uses r item := .part hnode (List.mem_cons_self ..)
      have hstart : Legs g tokens (use item) info collect place m [] [.start 0 place]
          [.start 0 place] ∅ _ := .start .refl (List.prefix_refl []) .nil
      rw [List.append_nil] at hstart
      exact lists_walk (hfits item) (fun q m way => huse item q hitem way m) hrounds hstart
        (List.prefix_refl _)
  | reference cell weak =>
      obtain ⟨r', htarget⟩ := hcomplete.target hnode
      simp only [Form.outcomes, Form.program, htarget]
      refine .becomes (.of_step fun s => ?_) (huse r' place (.target hnode htarget) .refl m)
      simp only [Machine.useForm, Machine.step, Machine.follow, State.goTo, htarget]
  | oneOf first others =>
      exact lists_choice (fun r' hr' m => huse r' place (.part hnode hr') .refl m) m
  | sequence first others build =>
      refine .flatMap (hfits first place) ?_
        (huse first place (.part hnode (List.mem_cons_self ..)) .refl m)
      intro v q m' way
      refine lists_continue hfits hform ?_ ?_ way m'
      · exact fun r' hr' q way' m => huse r' q (.part hnode (List.mem_cons_of_mem _ hr')) way' m
      · simp only [List.nil_append, List.length_cons, List.length_nil]
        omega

/-- A grammar has finitely many rules. -/
theorem Grammar.finite_has (g : Grammar τ α σ) : {r | g.Has r}.Finite := by
  have hinjective : Function.Injective Rule.node := by
    intro r r' heq
    cases r
    cases r'
    exact congrArg Rule.mk heq
  refine ((Set.finite_lt_nat g.nodes.size).preimage hinjective.injOn).subset fun r hr => ?_
  obtain ⟨node, hnode⟩ := hr
  exact (Array.getElem?_eq_some_iff.1 hnode).1

/-- There are finitely many places ahead in a list. -/
theorem Source.finite_leads (tokens : List τ) (place : Place) :
    {q | (Source.ofList tokens).Leads place q}.Finite := by
  let ahead (n : Nat) : Place := ⟨place.consumed + n, place.next + n⟩
  refine ((Set.finite_le_nat tokens.length).image ahead).subset fun q way => ?_
  have hsum := way.consumed_add_next
  have hle := way.next_le
  refine ⟨q.next - place.next, ?_, ?_⟩
  · rcases way.eq_or_lt_length with rfl | ⟨-, hlt⟩
    · simp
    · have hend := way.next_le_length hlt.le
      exact (Nat.sub_le ..).trans hend
  · obtain ⟨c, i⟩ := q
    simp only [ahead, Place.mk.injEq] at *
    omega

/-- **A call delivers the list that its program makes**, of lazy lists that are computed once,
by as many rounds as are enough. -/
theorem lists_call (tokens : List τ) {r : Rule} (hcomplete : g.Complete r)
    (htotal : g.Total r) (place : Place) (crumbs : Crumbs) :
    ∀ᶠ rounds in Filter.atTop, ∀ m,
      Lists g (Source.ofList tokens) (State.goTo · (.call r place crumbs))
        (g.program (Source.ofList tokens) rounds r place crumbs) m ∅
        (g.outcomes tokens r place crumbs) := by
  induction h : g.height tokens place crumbs using Nat.strongRecOn
    generalizing r place crumbs with
  | ind n ih =>
      subst h
      obtain ⟨info, form, hnode⟩ := hcomplete.node
      rw [Filter.eventually_atTop]
      cases hheld : crumbs.holds info.id place.consumed with
      | true =>
          refine ⟨1, fun rounds hrounds m => ?_⟩
          obtain ⟨rounds, rfl⟩ := Nat.exists_eq_add_of_le' hrounds
          rw [g.outcomes_held hnode hheld, Grammar.program, hnode]
          simp only [hheld, if_true]
          exact .becomes (becomes_circle hnode hheld) (.single m)
      | false =>
          let inner := crumbs.enter info.id place.consumed
          -- finitely many calls come of this one, and each has enough rounds at some point
          have hcalls : ∀ᶠ rounds in Filter.atTop, ∀ r' ∈ {r' | g.Has r'},
              ∀ q ∈ {q | (Source.ofList tokens).Leads place q}, g.Uses r r' → ∀ m,
              Lists g (Source.ofList tokens) (State.goTo · (.call r' q inner))
                (g.program (Source.ofList tokens) rounds r' q inner) m ∅
                (g.outcomes tokens r' q inner) := by
            refine (Filter.eventually_all_finite g.finite_has).2 fun r' _ => ?_
            refine (Filter.eventually_all_finite
              (Source.finite_leads tokens place)).2 fun q way => ?_
            by_cases huses : g.Uses r r'
            · refine (ih _ (g.height_lt hnode hheld way) (hcomplete.of_uses huses)
                (htotal.of_uses huses) q inner rfl).mono fun rounds hlists _ => hlists
            · exact .of_forall fun rounds hused => absurd hused huses
          have henough := hcalls.and (Filter.eventually_ge_atTop
            (2 * (g.outcomes tokens r place crumbs).length + 2))
          obtain ⟨N, hN⟩ := Filter.eventually_atTop.1 henough
          refine ⟨N + 1, fun rounds hrounds m => ?_⟩
          obtain ⟨rounds, rfl⟩ : ∃ k, rounds = k + 1 := ⟨rounds - 1, by omega⟩
          obtain ⟨hlists, hlong⟩ := hN rounds (Nat.le_of_succ_le_succ hrounds)
          rw [g.outcomes_fresh hnode hheld] at hlong ⊢
          rw [Grammar.program, hnode]
          simp only [hheld]
          refine .becomes (becomes_form hnode hheld) (lists_form hnode hcomplete htotal
            (fun r q => g.outcomes_fits r q _) (fun r' q huses way m => ?_) hlong m)
          obtain ⟨info', form', hnode'⟩ := (hcomplete.of_uses huses).node
          exact hlists r' ⟨_, hnode'⟩ q way huses m

/-- The list of a call consists of the outcomes of the rule. -/
theorem outcomes_listed (tokens : List τ) {r : Rule} (hcomplete : g.Complete r)
    (htotal : g.Total r) (place : Place) (crumbs : Crumbs) :
    ∀ᶠ rounds in Filter.atTop, ∀ m, ∃ list m₁ m',
      Evaluates m (g.program (Source.ofList tokens) rounds r place crumbs) list m₁ ∧
      m₁.Grows m' ∧ ∀ i ≤ (g.outcomes tokens r place crumbs).length, ∃ rest,
        m'.after i list = some rest ∧ m'.first? rest = (g.outcomes tokens r place crumbs)[i]? :=
  (lists_call tokens hcomplete htotal place crumbs).mono fun _ hlists m => (hlists m).exists_walk

end Calls

end LazyGrammar

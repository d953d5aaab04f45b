import LazyGrammar.Proofs.Recursion.Blame
import LazyGrammar.Proofs.Search.Refinement

/-!
# LazyGrammar.Proofs.Recursion.Alarm

**The analysis raises no false alarm.** A rule that it calls left-recursive fails so on every
input, and on an input with a token left, a rule that it calls nullable does succeed without
taking one.

Design points:

* A rule that can match nothing is searched on a trail that may have it already, so what is
  to be shown of it is that it either succeeds where it stands or raises an alarm
  (`answer_of_nullableIn`). Both are handed on by whatever uses the rule, and an alarm in front
  of the next step of a circle is as good as the step.
* To find a success, and not only an alarm, no rule on the trail may have a derivation as high as
  the one that is followed (`stays_of_nullableIn`). The derivation of a rule is only followed if
  it is a lowest one, so this is kept when the rule joins the trail.
* The rule for one item or more never succeeds without a token. The choice in which it stands has
  an alternative that does, by a derivation that is not higher.
-/

namespace LazyGrammar

variable {τ α σ : Type}

/-! ### Outcomes -/

/-- An outcome is a success that takes no token. -/
def Outcome.Stays (place : Place) (o : Outcome τ α) : Prop := ∃ v, o = .success place v

/-- An outcome is a failure that blames the grammar. -/
def Outcome.Alarms (o : Outcome τ α) : Prop :=
  ∃ c info, o.result = .error ⟨c, .leftRecursion info⟩

/-- Some outcome is a failure that blames the grammar. -/
def Alarm (os : List (Outcome τ α)) : Prop := ∃ o ∈ os, o.Alarms

/-- Some outcome is a success that takes no token or, if that is good enough, an alarm. -/
def Answer (lax : Prop) (place : Place) (os : List (Outcome τ α)) : Prop :=
  ∃ o ∈ os, o.Stays place ∨ lax ∧ o.Alarms

variable {g : Grammar τ α σ} {tokens : List τ} {lax : Prop} {place : Place}
  {os : List (Outcome τ α)} {next : α → Place → List (Outcome τ α)}
  {use : Rule → Place → List (Outcome τ α)} {build : List α → Except Fault α}

theorem Alarm.circle (place : Place) (info : RuleInfo) :
    Alarm [(Outcome.circle place info : Outcome τ α)] :=
  ⟨_, List.mem_singleton.2 rfl, place.consumed, info, rfl⟩

theorem Alarm.answer (h : Alarm os) (hlax : lax) : Answer lax place os := by
  obtain ⟨o, ho, halarm⟩ := h
  exact ⟨o, ho, Or.inr ⟨hlax, halarm⟩⟩

theorem Answer.success (lax : Prop) (place : Place) (v : α) :
    Answer lax place [(Outcome.success place v : Outcome τ α)] :=
  ⟨_, List.mem_singleton.2 rfl, Or.inl ⟨v, rfl⟩⟩

/-- An alarm stays, whatever goes on from successes. -/
theorem Alarm.followedBy (h : Alarm os) : Alarm (os.flatMap (Outcome.followedBy next)) := by
  obtain ⟨o, ho, c, info, herror⟩ := h
  refine ⟨.failure ⟨c, .leftRecursion info⟩ o.place.next, List.mem_flatMap.2 ⟨o, ho, ?_⟩,
    c, info, rfl⟩
  rw [Outcome.followedBy_error next herror]
  exact List.mem_singleton.2 rfl

theorem Alarm.of_stays (h : ∃ o ∈ os, o.Stays place) (hnext : ∀ v, Alarm (next v place)) :
    Alarm (os.flatMap (Outcome.followedBy next)) := by
  obtain ⟨_, ho, v, rfl⟩ := h
  obtain ⟨o', ho', halarm⟩ := hnext v
  exact ⟨o', List.mem_flatMap.2 ⟨_, ho, ho'⟩, halarm⟩

/-- Both a success and an alarm lead to an alarm, if what goes on from the success does. -/
theorem Answer.alarm (h : Answer lax place os) (hnext : ∀ v, Alarm (next v place)) :
    Alarm (os.flatMap (Outcome.followedBy next)) := by
  obtain ⟨o, ho, hstays | ⟨-, halarms⟩⟩ := h
  · exact .of_stays ⟨o, ho, hstays⟩ hnext
  · exact Alarm.followedBy ⟨o, ho, halarms⟩

theorem Answer.followedBy (h : Answer lax place os) (hnext : ∀ v, Answer lax place (next v place)) :
    Answer lax place (os.flatMap (Outcome.followedBy next)) := by
  obtain ⟨o, ho, ⟨v, rfl⟩ | ⟨hlax, halarms⟩⟩ := h
  · obtain ⟨o', ho', hanswer⟩ := hnext v
    exact ⟨o', List.mem_flatMap.2 ⟨_, ho, ho'⟩, hanswer⟩
  · exact (Alarm.followedBy ⟨o, ho, halarms⟩).answer hlax

/-! ### Sequences -/

/-- A sequence of rules that answer does so. -/
theorem answer_sequence {n : Nat} (hbuild : ∀ vs, vs.length = n → ∃ w, build vs = .ok w)
    {rules : List Rule} {values : List α} (hlength : values.length + rules.length = n)
    (hall : ∀ r ∈ rules, Answer lax place (use r place)) :
    Answer lax place (sequenceOutcomes use build rules values place) := by
  induction rules generalizing values with
  | nil =>
      obtain ⟨w, hw⟩ := hbuild values hlength
      rw [sequenceOutcomes, hw]
      exact .success lax place w
  | cons rule rules ih =>
      refine (hall rule (List.mem_cons_self ..)).followedBy fun v => ih ?_ ?_
      · simp only [List.length_append, List.length_cons, List.length_nil] at hlength ⊢
        omega
      · exact fun r hr => hall r (List.mem_cons_of_mem _ hr)

/-- A sequence raises an alarm if one of its rules does, and those before it answer. -/
theorem alarm_sequence {before after : List Rule} {r : Rule} {values : List α}
    (hbefore : ∀ r' ∈ before, Answer True place (use r' place)) (hr : Alarm (use r place)) :
    Alarm (sequenceOutcomes use build (before ++ r :: after) values place) := by
  induction before generalizing values with
  | nil => exact hr.followedBy
  | cons first before ih =>
      refine (hbefore first (List.mem_cons_self ..)).alarm fun v => ih ?_
      exact fun r' hr' => hbefore r' (List.mem_cons_of_mem _ hr')

/-! ### Forms -/

section Forms

variable {r : Rule} {info : RuleInfo} {form : Form τ α} {shape : Shape}

/-- A form whose shape is nullable answers, if the rules that make it so do. One item or more
can only raise an alarm. -/
theorem Form.answer (hnode : g.node? r = some ⟨info, form⟩) (hform : form.Total)
    (hshape : form.shape g false = some shape) {known : RuleId → Prop}
    (hnullable : shape.NullableIf known) (hrun : form.isRun = true → lax)
    (huse : ∀ r', g.Uses r r' → known (g.idOf r') → Answer lax place (use r' place)) :
    Answer lax place (form.outcomes g tokens info use place) := by
  cases form with
  | terminal accept =>
      cases hshape
      cases hnullable
  | epsilon value => exact .success lax place value
  | endOfInput value =>
      cases hshape
      cases hnullable
  | map inner f =>
      cases hshape
      have hinner := huse inner (.part hnode (List.mem_cons_self ..))
        (hnullable _ (List.mem_cons_self ..))
      refine hinner.followedBy fun v => ?_
      obtain ⟨w, hw⟩ := hform v
      rw [hw]
      exact .success lax place w
  | repetition item collect =>
      cases hshape
      have hitem := huse item (.part hnode (List.mem_cons_self ..))
        (hnullable _ (List.mem_cons_self ..))
      -- an item without a token is where a repetition gives up
      refine Alarm.answer (hitem.alarm fun v => ?_) (hrun rfl)
      rw [if_pos rfl]
      exact .circle place info
  | reference cell weak =>
      simp only [Form.shape] at hshape
      split at hshape
      · next r' htarget =>
        cases hshape
        simp only [Form.outcomes, htarget]
        exact huse r' (.target hnode htarget) (hnullable _ (List.mem_cons_self ..))
      · cases hshape
  | oneOf first others =>
      cases hshape
      obtain ⟨child, hchild, hknown⟩ := hnullable
      obtain ⟨r', hr', rfl⟩ := List.mem_map.1 hchild
      obtain ⟨o, ho, hanswer⟩ := huse r' (.part hnode hr') hknown
      exact ⟨o, List.mem_flatMap.2 ⟨r', hr', ho⟩, hanswer⟩
  | sequence first others build =>
      cases hshape
      refine answer_sequence hform ?_ fun r' hr' => ?_
      · simp only [List.length_nil, List.length_cons]
        omega
      · exact huse r' (.part hnode hr') (hnullable _ (List.mem_map_of_mem hr'))

/-- A form raises an alarm if one of the rules does that it may enter first. -/
theorem Form.alarm (hnode : g.node? r = some ⟨info, form⟩) {shapes : Shapes}
    (hshape : ∀ shape, shapes info.id shape → form.shape g false = some shape) {child : RuleId}
    (hchild : shapes.Leftmost info.id child)
    (hnullable : ∀ r', g.Uses r r' → shapes.Nullable (g.idOf r') →
      Answer True place (use r' place))
    (halarm : ∀ r', g.Uses r r' → g.idOf r' = child → Alarm (use r' place)) :
    Alarm (form.outcomes g tokens info use place) := by
  cases hchild with
  | choice h hmem =>
      have h := hshape _ h
      cases form with
      | oneOf first others =>
          cases h
          obtain ⟨r', hr', hid⟩ := List.mem_map.1 hmem
          obtain ⟨o, ho, halarms⟩ := halarm r' (.part hnode hr') hid
          exact ⟨o, List.mem_flatMap.2 ⟨r', hr', ho⟩, halarms⟩
      | reference cell weak =>
          simp only [Form.shape] at h
          split at h <;> cases h
      | _ => cases h
  | @chain before after h hbefore =>
      have h := hshape _ h
      have honly : ∀ {r'}, [g.idOf r'] = before ++ child :: after → g.idOf r' = child := by
        intro r' heq
        have hmem : child ∈ [g.idOf r'] := heq ▸ List.mem_append_right _ (List.mem_cons_self ..)
        exact (List.mem_singleton.1 hmem).symm
      cases form with
      | map inner f =>
          have hinner := halarm inner (.part hnode (List.mem_cons_self ..))
            (honly (Shape.chain.inj (Option.some.inj h)))
          exact hinner.followedBy
      | repetition item collect =>
          have hitem := halarm item (.part hnode (List.mem_cons_self ..))
            (honly (Shape.chain.inj (Option.some.inj h)))
          exact hitem.followedBy
      | reference cell weak =>
          simp only [Form.shape] at h
          split at h
          · next r' htarget =>
            simp only [Form.outcomes, htarget]
            exact halarm r' (.target hnode htarget) (honly (Shape.chain.inj (Option.some.inj h)))
          · cases h
      | sequence first others build =>
          obtain ⟨front, back, hrules, rfl, hback⟩ :=
            List.map_eq_append_iff.1 (Shape.chain.inj (Option.some.inj h))
          obtain ⟨r', rest, rfl, hid, -⟩ := List.map_eq_cons_iff.1 hback
          have hpart : ∀ r'' ∈ front ++ r' :: rest, g.Uses r r'' := by
            intro r'' hr''
            exact .part hnode (hrules.symm ▸ hr'' : r'' ∈ first :: others)
          rw [Form.outcomes, hrules]
          refine alarm_sequence (fun r'' hr'' => ?_) (halarm r' (hpart r' (by simp)) hid)
          exact hnullable r'' (hpart r'' (List.mem_append_left _ hr''))
            (hbefore _ (List.mem_map_of_mem hr''))
      | _ => cases h

end Forms

/-! ### Calls -/

section Calls

variable {s : Survey} {root r : Rule} {info : RuleInfo} {form : Form τ α} {shape : Shape}
  {path : Path}

/-- In a complete part of the grammar, what the survey has found is the shape of the form. -/
theorem Survey.Covers.form_shape (hs : s.Covers g root) (hcomplete : g.Complete r)
    (hnode : g.node? r = some ⟨info, form⟩) (hshape : s.shapes info.id shape) :
    form.shape g false = some shape := by
  obtain ⟨shape', hshape', hform⟩ := hs.shape hnode (hs.closed.mem_of_shape hshape)
  rcases hform with hform | ⟨cell, weak, id, rfl, -, hreleased⟩
  · rw [hform, Survey.shapes_eq hshape hshape']
  · obtain ⟨r', htarget⟩ := hcomplete.target hnode
    rw [g.target_of_released hreleased] at htarget
    cases htarget

theorem alarm_of_held (hnode : g.node? r = some ⟨info, form⟩)
    (hheld : (info.id, place.consumed) ∈ path) : Alarm (g.outcomes tokens r place path) := by
  rw [Grammar.outcomes_held hnode (decide_eq_true hheld)]
  exact .circle place info

/-- **A rule that can match nothing answers**, on any trail. -/
theorem answer_of_nullableIn (hs : s.Covers g root) {n : Nat} (hcomplete : g.Complete r)
    (htotal : g.Total r) (hnullable : s.shapes.NullableIn n (g.idOf r)) :
    Answer True place (g.outcomes tokens r place path) := by
  induction n generalizing r path with
  | zero => exact hnullable.elim
  | succ n ih =>
      obtain ⟨info, form, hnode⟩ := hcomplete.node
      obtain ⟨shape, hshape, hif⟩ := hnullable
      rw [g.idOf_eq hnode] at hshape
      by_cases hheld : (info.id, place.consumed) ∈ path
      · exact (alarm_of_held hnode hheld).answer trivial
      · rw [Grammar.outcomes_fresh hnode (decide_eq_false hheld)]
        refine Form.answer hnode (htotal.form hnode) (hs.form_shape hcomplete hnode hshape) hif
          (fun _ => trivial) fun r' huses hr' => ?_
        exact ih (hcomplete.of_uses huses) (htotal.of_uses huses) hr'

/-- A rule raises an alarm if all rules do that may be entered first with some identity. -/
theorem alarm_of_leftmost (hs : s.Covers g root) (hcomplete : g.Complete r) (htotal : g.Total r)
    {child : RuleId} (hchild : s.shapes.Leftmost (g.idOf r) child)
    (halarm : ∀ r', g.Uses r r' → g.idOf r' = child →
      Alarm (g.outcomes tokens r' place ((g.idOf r, place.consumed) :: path))) :
    Alarm (g.outcomes tokens r place path) := by
  obtain ⟨info, form, hnode⟩ := hcomplete.node
  rw [g.idOf_eq hnode] at hchild halarm
  by_cases hheld : (info.id, place.consumed) ∈ path
  · exact alarm_of_held hnode hheld
  · rw [Grammar.outcomes_fresh hnode (decide_eq_false hheld)]
    refine Form.alarm hnode (fun _ => hs.form_shape hcomplete hnode) hchild ?_ halarm
    intro r' huses hnullable
    obtain ⟨n, hn⟩ := Shapes.nullable_iff.1 hnullable
    exact answer_of_nullableIn hs (hcomplete.of_uses huses) (htotal.of_uses huses) hn

/-- The leftmost way to a rule on the trail ends with an alarm. -/
theorem alarm_of_way (hs : s.Covers g root) {id goal : RuleId}
    (hway : Relation.ReflTransGen s.shapes.Leftmost id goal) (hcomplete : g.Complete r)
    (htotal : g.Total r) (hid : g.idOf r = id) (hgoal : (goal, place.consumed) ∈ path) :
    Alarm (g.outcomes tokens r place path) := by
  induction hway using Relation.ReflTransGen.head_induction_on generalizing r path with
  | refl =>
      obtain ⟨info, form, hnode⟩ := hcomplete.node
      rw [g.idOf_eq hnode] at hid
      exact alarm_of_held hnode (hid ▸ hgoal)
  | head hfirst _ ih =>
      subst hid
      refine alarm_of_leftmost hs hcomplete htotal hfirst fun r' huses hid => ?_
      exact ih (hcomplete.of_uses huses) (htotal.of_uses huses) hid (List.mem_cons_of_mem _ hgoal)

/-- **A circular rule raises an alarm.** -/
theorem alarm_of_circular (hs : s.Covers g root) (hcomplete : g.Complete r) (htotal : g.Total r)
    (hcircular : s.shapes.Circular (g.idOf r)) : Alarm (g.outcomes tokens r place path) := by
  obtain ⟨child, hfirst, hway⟩ := Relation.TransGen.head'_iff.1 hcircular
  refine alarm_of_leftmost hs hcomplete htotal hfirst fun r' huses hid => ?_
  exact alarm_of_way hs hway (hcomplete.of_uses huses) (htotal.of_uses huses) hid
    (List.mem_cons_self ..)

/-! ### Successes -/

/-- An identity is that of a rule that may be used to make others. -/
def Plain (g : Grammar τ α σ) (id : RuleId) : Prop := ∃ r, g.Usable r ∧ g.idOf r = id

theorem Grammar.Consistent.usable_of_plain (hg : g.Consistent) (hr : g.Has r)
    (h : Plain g (g.idOf r)) : g.Usable r := by
  obtain ⟨node, hnode⟩ := hr
  obtain ⟨r', ⟨node', hnode', hform⟩, hid⟩ := h
  rw [g.idOf_eq hnode', g.idOf_eq hnode] at hid
  exact ⟨node, hnode, (hg.agree hnode' hnode hid).isRun_eq ▸ hform⟩

/-- Nothing, in the choice that a repetition makes, is no higher than one item or more. -/
theorem nullableIn_without (hs : s.Covers g root) (hid : g.idOf r ∈ s.ids)
    (hcomplete : g.Complete r) {n : Nat} {r' without nothing : Rule} {info' info'' : RuleInfo}
    {f : α → Except Fault α} {value : α} (hnode : g.node? r = some ⟨info, .oneOf without [r']⟩)
    (hwithout : g.node? without = some ⟨info', .map nothing f⟩)
    (hnothing : g.node? nothing = some ⟨info'', .epsilon value⟩) (hrun : ¬ g.Usable r')
    (hnullable : s.shapes.NullableIn n (g.idOf r')) : s.shapes.NullableIn n (g.idOf without) := by
  have hcomplete' : g.Complete r' :=
    hcomplete.of_uses (.part hnode (List.mem_cons_of_mem _ (List.mem_cons_self ..)))
  have hid' : g.idOf without ∈ s.ids := hs.of_uses hid (.part hnode (List.mem_cons_self ..))
  have hid'' : g.idOf nothing ∈ s.ids := hs.of_uses hid' (.part hwithout (List.mem_cons_self ..))
  rw [g.idOf_eq hwithout] at hid' ⊢
  rw [g.idOf_eq hnothing] at hid''
  -- one item or more has an item below it, so its derivation has a height of two at least
  obtain ⟨m, rfl⟩ : ∃ m, n = m + 2 := by
    obtain ⟨info, form, hnode'⟩ := hcomplete'.node
    cases n with
    | zero => exact hnullable.elim
    | succ n =>
        obtain ⟨shape, hshape, hif⟩ := hnullable
        rw [g.idOf_eq hnode'] at hshape
        have hform := hs.form_shape hcomplete' hnode' hshape
        cases form with
        | repetition item collect =>
            cases hform
            cases n with
            | zero => exact (hif _ (List.mem_cons_self ..)).elim
            | succ m => exact ⟨m, rfl⟩
        | _ => exact absurd ⟨_, hnode', rfl⟩ hrun
  have hleaf : s.shapes.NullableIn (m + 1) (g.idOf nothing) := by
    rw [g.idOf_eq hnothing]
    exact ⟨.leaf true, hs.shapes_of_form hnothing hid'' rfl, rfl⟩
  refine ⟨.chain [g.idOf nothing], hs.shapes_of_form hwithout hid' rfl, ?_⟩
  intro child hchild
  cases List.mem_singleton.1 hchild
  exact hleaf

/-- If a rule has a derivation, it has one as high through rules that may be used. -/
theorem nullableIf_plain (hg : g.Consistent) (hs : s.Covers g root) (hcomplete : g.Complete r)
    {n : Nat} (hnode : g.node? r = some ⟨info, form⟩) (hshape : s.shapes info.id shape)
    (hif : shape.NullableIf (s.shapes.NullableIn n)) :
    shape.NullableIf fun id => s.shapes.NullableIn n id ∧ Plain g id := by
  have hform := hs.form_shape hcomplete hnode hshape
  have hid : g.idOf r ∈ s.ids := g.idOf_eq hnode ▸ hs.closed.mem_of_shape hshape
  have hpart : (∀ first others, form ≠ .oneOf first others) → ∀ r' ∈ form.parts,
      Plain g (g.idOf r') := by
    intro hne r' hr'
    refine ⟨r', (hg.part hnode hr').resolve_right ?_, rfl⟩
    rintro ⟨-, without, -, -, -, -, -, heq, -⟩
    exact hne without [r'] heq
  cases form with
  | terminal accept =>
      cases hform
      cases hif
  | epsilon value =>
      cases hform
      rfl
  | endOfInput value =>
      cases hform
      cases hif
  | map inner f =>
      cases hform
      intro child hchild
      cases List.mem_singleton.1 hchild
      exact ⟨hif _ hchild, hpart (by simp) inner (List.mem_cons_self ..)⟩
  | repetition item collect =>
      cases hform
      intro child hchild
      cases List.mem_singleton.1 hchild
      exact ⟨hif _ hchild, hpart (by simp) item (List.mem_cons_self ..)⟩
  | reference cell weak =>
      simp only [Form.shape] at hform
      split at hform
      · next r' htarget =>
        cases hform
        intro child hchild
        cases List.mem_singleton.1 hchild
        exact ⟨hif _ hchild, r', hg.target htarget, rfl⟩
      · cases hform
  | sequence first others build =>
      cases hform
      intro child hchild
      obtain ⟨r', hr', rfl⟩ := List.mem_map.1 hchild
      exact ⟨hif _ hchild, hpart (by simp) r' hr'⟩
  | oneOf first others =>
      cases hform
      obtain ⟨child, hchild, hnullable⟩ := hif
      obtain ⟨r', hr', rfl⟩ := List.mem_map.1 hchild
      by_cases hr : g.Usable r'
      · exact ⟨_, hchild, hnullable, r', hr, rfl⟩
      · obtain ⟨-, without, nothing, info', info'', f, value, heq, hwithout, hnothing⟩ :=
          (hg.part hnode hr').resolve_left hr
        cases heq
        exact ⟨g.idOf first, List.mem_cons_self ..,
          nullableIn_without hs hid hcomplete hnode hwithout hnothing hr hnullable,
          first, ⟨_, hwithout, rfl⟩, rfl⟩

/-- **A rule that can match nothing does so**, on a trail without rules of a derivation as
high. -/
theorem stays_of_nullableIn (hg : g.Consistent) (hs : s.Covers g root) {n : Nat}
    (hcomplete : g.Complete r) (htotal : g.Total r) (hr : g.Usable r)
    (hnullable : s.shapes.NullableIn n (g.idOf r))
    (hpath : ∀ id, (id, place.consumed) ∈ path → ¬ s.shapes.NullableIn n id) :
    Answer False place (g.outcomes tokens r place path) := by
  induction n generalizing r path with
  | zero => exact hnullable.elim
  | succ n ih =>
      by_cases hlower : s.shapes.NullableIn n (g.idOf r)
      · exact ih hcomplete htotal hr hlower fun id hid h => hpath id hid h.succ
      · obtain ⟨⟨info, form⟩, hnode, hrun⟩ := hr
        rw [g.idOf_eq hnode] at hnullable hlower
        have hfresh : (info.id, place.consumed) ∉ path := fun hheld => hpath _ hheld hnullable
        obtain ⟨shape, hshape, hif⟩ := hnullable
        rw [Grammar.outcomes_fresh hnode (decide_eq_false hfresh)]
        refine Form.answer hnode (htotal.form hnode) (hs.form_shape hcomplete hnode hshape)
          (nullableIf_plain hg hs hcomplete hnode hshape hif)
          (fun h => absurd h (Bool.eq_false_iff.1 hrun)) ?_
        rintro r' huses ⟨hr', hplain⟩
        have hcomplete' := hcomplete.of_uses huses
        obtain ⟨info', form', hnode'⟩ := hcomplete'.node
        refine ih hcomplete' (htotal.of_uses huses)
          (hg.usable_of_plain ⟨_, hnode'⟩ hplain) hr' ?_
        intro id hid
        rcases List.mem_cons.1 hid with heq | hid
        · cases heq
          exact hlower
        · exact fun h => hpath id hid h.succ

end Calls

/-! ### Searches -/

variable {root r : Rule} {s : Survey} {a : Analysis} {p : Properties}

/-- The outcomes that a search from the start of the input comes to. -/
theorem settles_path (hg : g.Closed) (hcomplete : g.Complete r) (htotal : g.Total r)
    (tokens : List τ) (trace : Trace) :
    ∃ found t, Settles g (Source.ofList tokens) collect found t g ⟨#[], none⟩
        (.calling r ⟨0, 0⟩ trace) ∧
      found.toList.map (·.outcome) = g.outcomes tokens r ⟨0, 0⟩ ([] : Path) := by
  obtain ⟨info, form, hnode⟩ := hcomplete.node
  obtain ⟨found, t, hsettles, hfound⟩ :=
    settles_outcomes tokens (.refl hg) ⟨_, hnode⟩ hcomplete htotal ⟨0, 0⟩ .root 1 trace
  rw [Grammar.outcomes_entries r ⟨0, 0⟩ (.root 0)] at hfound
  exact ⟨found, t, hsettles, hfound⟩

/-- **The analysis raises no false alarm.** The outcomes of a rule that it has found to be
left-recursive have a failure that blames the grammar, on every input, as long as the recursive
rules below it are kept. -/
theorem flagged_alarms (haccepts : g.Accepts root a) (hr : g.Has r) (hretains : g.Retains r)
    (htotal : g.Total r) (hp : a.properties? (g.idOf r) = some p) (hflag : p.leftRecursive = true)
    (tokens : List τ) (trace : Trace) :
    ∃ found t, Settles g (Source.ofList tokens) collect found t g ⟨#[], none⟩
        (.calling r ⟨0, 0⟩ trace) ∧
      ∃ x ∈ found, ∃ c info, x.outcome.result = .error ⟨c, .leftRecursion info⟩ := by
  have hclosed := haccepts.consistent.closed
  obtain ⟨s, rfl, hs, -⟩ := haccepts.covers
  obtain ⟨hid, -, hcircular⟩ := (Analysis.properties?_ofSurvey hs.closed).1 hp
  have hcomplete := hs.complete hclosed hretains hr hid
  obtain ⟨found, t, hsettles, hfound⟩ := settles_path hclosed hcomplete htotal tokens trace
  obtain ⟨o, ho, halarms⟩ : Alarm (g.outcomes tokens r ⟨0, 0⟩ ([] : Path)) :=
    alarm_of_circular hs hcomplete htotal (hcircular.1 hflag)
  rw [← hfound] at ho
  obtain ⟨x, hx, rfl⟩ := List.mem_map.1 ho
  exact ⟨found, t, hsettles, x, Array.mem_toList_iff.1 hx, halarms⟩

namespace Grammar

theorem again_retains (kind : RuleKind) (guard : Form Char Nat) (kind' : RuleKind)
    (other : Form Char Nat) : (again kind guard kind' other).Retains ⟨5⟩ := by
  intro r info cell weak hreach hnode hreleased
  match cell with
  | 0 => cases hreleased
  | n + 1 => cases hreleased

theorem stuttering_retains : stuttering.Retains ⟨5⟩ := again_retains _ _ _ _

theorem stuttering_total : stuttering.Total ⟨5⟩ :=
  total_of_all (by simp [stuttering, again, turn, Form.Total]) _

theorem stuttering_circular (hs : s.Covers stuttering ⟨5⟩) : s.shapes.Circular 0 := by
  have hshapes := again_shapes hs rfl rfl
  have hroot : s.shapes 0 (.chain [4]) := by simp [hshapes]
  have hchoice : s.shapes 4 (.choice [2, 3]) := by simp [hshapes]
  have hturn : s.shapes 2 (.chain ([1] ++ 0 :: [])) := by simp [hshapes]
  have hguard : s.shapes.Nullable 1 := .leaf (by simp [hshapes])
  have hagain : s.shapes.Leftmost 2 0 := .chain hturn (by simp [hguard])
  exact .head (.first hroot) (.head (.choice hchoice (by simp)) (.single hagain))

end Grammar

/-- The rule that starts again at once is found out, and fails so where there is nothing to
read. -/
theorem stuttering_flagged_alarms :
    ∃ a p, Grammar.stuttering.Accepts ⟨5⟩ a ∧ Grammar.stuttering.Has ⟨5⟩ ∧
      Grammar.stuttering.Retains ⟨5⟩ ∧ Grammar.stuttering.Total ⟨5⟩ ∧
      a.properties? (Grammar.stuttering.idOf ⟨5⟩) = some p ∧ p.leftRecursive = true ∧
      ∃ (found : Array (Sighting Char Nat)) (t : State Char Nat),
        Settles Grammar.stuttering (Source.ofList []) collect found t Grammar.stuttering
          ⟨#[], none⟩ (.calling ⟨5⟩ ⟨0, 0⟩ .silent) ∧
        ∃ x ∈ found, ∃ c info, x.outcome.result = .error ⟨c, .leftRecursion info⟩ := by
  obtain ⟨a, haccepts⟩ := Grammar.stuttering_accepts
  obtain ⟨s, rfl, hs, -⟩ := haccepts.covers
  obtain ⟨p, hp, -, hcircular⟩ := Analysis.exists_properties hs.closed hs.root
  have hflag := hcircular.2 (Grammar.stuttering_circular hs)
  have hroot : Grammar.stuttering.Has ⟨5⟩ := ⟨_, rfl⟩
  exact ⟨_, p, haccepts, hroot, Grammar.stuttering_retains,
    Grammar.stuttering_total, hp, hflag, flagged_alarms haccepts hroot
      Grammar.stuttering_retains Grammar.stuttering_total hp hflag [] .silent⟩

/-- A rule that can match nothing has an outcome that does. -/
theorem Survey.Covers.success_of_nullable (hs : s.Covers g root) (hg : g.Consistent)
    (hr : g.Usable r) (hcomplete : g.Complete r) (htotal : g.Total r)
    (hnullable : s.shapes.Nullable (g.idOf r)) (tokens : List τ) (place : Place) :
    ∃ v, Outcome.success place v ∈ g.outcomes tokens r place ([] : Path) := by
  obtain ⟨n, hn⟩ := Shapes.nullable_iff.1 hnullable
  obtain ⟨o, ho, ⟨v, rfl⟩ | ⟨hfalse, -⟩⟩ : Answer False place (g.outcomes tokens r place []) :=
    stays_of_nullableIn hg hs hcomplete htotal hr hn nofun
  · exact ⟨v, ho⟩
  · exact hfalse.elim

/-- A rule that has succeeded without taking a token that is left can match nothing. -/
theorem Survey.Covers.nullable_of_success (hs : s.Covers g root) (hg : g.Closed) (hr : g.Has r)
    (hid : g.idOf r ∈ s.ids) {tokens : List τ} (hne : tokens ≠ []) {trace : Trace}
    {found : Array (Sighting τ α)}
    (hexplores : Explores (Source.ofList tokens) collect g ⟨#[], none⟩ (.calling r ⟨0, 0⟩ trace)
      found) {x : Sighting τ α} (hx : x ∈ found) (hsuccess : x.outcome.isSuccess = true)
    (hconsumed : x.outcome.place.consumed = 0) : s.shapes.Nullable (g.idOf r) := by
  have hgives := hs.explores hg hr hid collect_keepsTo (by simp) hexplores x hx
  have hok : x.outcome.plain.result = .ok () := by
    rw [Outcome.isSuccess] at hsuccess
    cases hresult : x.outcome.result with
    | ok v => exact Machine.plain_ok hresult
    | error e => simp [hresult, Except.isOk, Except.toBool] at hsuccess
  have hplace := hgives.fits.way.eq_or_consumed_lt.resolve_right
    (Nat.not_lt.2 (Nat.le_of_eq hconsumed))
  have hskips := hgives.skips hs hid hok hplace
  exact hskips.mono (hs.shapesAt_le (List.length_pos_iff.2 hne))

/-- **Nullability is exact where a token is left.** A rule that may be used to make others
succeeds without taking a token exactly if the analysis has found it to be nullable, as long as
the recursive rules below it are kept. -/
theorem nullable_exact (haccepts : g.Accepts root a) (hr : g.Usable r) (hretains : g.Retains r)
    (htotal : g.Total r) (hp : a.properties? (g.idOf r) = some p) {tokens : List τ}
    (hne : tokens ≠ []) (trace : Trace) :
    ∃ found t, Settles g (Source.ofList tokens) collect found t g ⟨#[], none⟩
        (.calling r ⟨0, 0⟩ trace) ∧
      (p.nullable = true ↔
        ∃ x ∈ found, x.outcome.isSuccess = true ∧ x.outcome.place.consumed = 0) := by
  have hclosed := haccepts.consistent.closed
  obtain ⟨s, rfl, hs, -⟩ := haccepts.covers
  obtain ⟨hid, hnullable, -⟩ := (Analysis.properties?_ofSurvey hs.closed).1 hp
  have hcomplete := hs.complete hclosed hretains hr.has hid
  obtain ⟨found, t, hsettles, hfound⟩ := settles_path hclosed hcomplete htotal tokens trace
  refine ⟨found, t, hsettles, ?_⟩
  rw [hnullable]
  constructor
  · intro h
    obtain ⟨v, ho⟩ :=
      hs.success_of_nullable haccepts.consistent hr hcomplete htotal h tokens ⟨0, 0⟩
    rw [← hfound] at ho
    obtain ⟨x, hx, hsuccess⟩ := List.mem_map.1 ho
    exact ⟨x, Array.mem_toList_iff.1 hx, hsuccess ▸ rfl, hsuccess ▸ rfl⟩
  · rintro ⟨x, hx, hsuccess, hconsumed⟩
    have hexplores := hsettles.explores (.refl hclosed) hclosed hcomplete
      (State.within_known hr.has ⟨0, 0⟩ .root 1 trace)
    exact hs.nullable_of_success hclosed hr.has hid hne hexplores hx hsuccess hconsumed

namespace Grammar

theorem lingering_retains : lingering.Retains ⟨5⟩ := again_retains _ _ _ _

theorem lingering_total : lingering.Total ⟨5⟩ :=
  total_of_all (by simp [lingering, again, turn, Form.Total]) _

theorem lingering_nullable (hs : s.Covers lingering ⟨5⟩) : s.shapes.Nullable 0 := by
  have hshapes := again_shapes hs rfl rfl
  have hroot : s.shapes 0 (.chain [4]) := by simp [hshapes]
  have hchoice : s.shapes 4 (.choice [2, 3]) := by simp [hshapes]
  have hother : s.shapes.Nullable 3 := .leaf (by simp [hshapes])
  have hnullable : s.shapes.Nullable 4 := .choice hchoice (by simp) hother
  exact .chain hroot (by simp [hnullable])

end Grammar

/-- The rule that starts again at the end of the input can match nothing in front of a letter. -/
theorem lingering_nullable_exact :
    ∃ a p, Grammar.lingering.Accepts ⟨5⟩ a ∧ Grammar.lingering.Usable ⟨5⟩ ∧
      Grammar.lingering.Retains ⟨5⟩ ∧ Grammar.lingering.Total ⟨5⟩ ∧
      a.properties? (Grammar.lingering.idOf ⟨5⟩) = some p ∧ p.nullable = true ∧ ['x'] ≠ [] ∧
      ∃ (found : Array (Sighting Char Nat)) (t : State Char Nat),
        Settles Grammar.lingering (Source.ofList ['x']) collect found t Grammar.lingering
          ⟨#[], none⟩ (.calling ⟨5⟩ ⟨0, 0⟩ .silent) ∧
        ∃ x ∈ found, x.outcome.isSuccess = true ∧ x.outcome.place.consumed = 0 := by
  obtain ⟨a, haccepts⟩ := Grammar.lingering_accepts
  obtain ⟨s, rfl, hs, -⟩ := haccepts.covers
  obtain ⟨p, hp, hnullable, -⟩ := Analysis.exists_properties hs.closed hs.root
  have hroot : Grammar.lingering.Usable ⟨5⟩ := ⟨_, rfl, rfl⟩
  have hflag := hnullable.2 (Grammar.lingering_nullable hs)
  obtain ⟨found, t, hsettles, hexact⟩ := nullable_exact haccepts hroot
    Grammar.lingering_retains Grammar.lingering_total hp (List.cons_ne_nil 'x' []) .silent
  exact ⟨_, p, haccepts, hroot, Grammar.lingering_retains,
    Grammar.lingering_total, hp, hflag, List.cons_ne_nil 'x' [], found, t, hsettles,
    hexact.1 hflag⟩

end LazyGrammar

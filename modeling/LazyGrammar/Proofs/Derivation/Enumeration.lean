import LazyGrammar.Proofs.Derivation.Tree
import LazyGrammar.Proofs.Search.Refinement

/-!
# LazyGrammar.Proofs.Derivation.Enumeration

**A search enumerates derivations.** The successes of a stream are the acyclic derivation
trees of the rule: each tree once, in order, with its end and its value.

`Enumerates` says this of any kind of reading, be it trees, lists of trees or choices, and
there is one lemma for each way in which outcomes are put together. The trail of a call is
the path to the tree: a rule that is on the trail is one whose tree would be cyclic.
-/

namespace LazyGrammar

variable {τ α σ : Type}

/-! ### Successes -/

/-- The place after as many tokens, in a search from the start of the input. -/
def Place.after (i : Nat) : Place := ⟨i, i⟩

@[simp] theorem Place.consumed_after (i : Nat) : (Place.after i).consumed = i := rfl

@[simp] theorem Place.next_after (i : Nat) : (Place.after i).next = i := rfl

/-- The end and the value of a success. -/
def Outcome.success? (o : Outcome τ α) : Option (Nat × α) :=
  match o.result with
  | .ok v => some (o.place.consumed, v)
  | .error _ => none

/-- The ends and the values of the successes among some outcomes. -/
def successes (os : List (Outcome τ α)) : List (Nat × α) := os.filterMap Outcome.success?

variable {X Y : Type} {D D' : X → Nat → α → Prop} {lt : X → X → Prop}
  {rs rs' : List (X × Nat × α)} {o : Outcome τ α} {os os' : List (Outcome τ α)} {i j : Nat}
  {src : Source τ}

theorem successes_append : successes (os ++ os') = successes os ++ successes os' :=
  List.filterMap_append

theorem successes_cons_error {e : ParseError τ} (h : o.result = .error e) :
    successes (o :: os) = successes os := by
  rw [successes, List.filterMap_cons]
  simp only [Outcome.success?, h, successes]

theorem successes_cons_ok {v : α} (h : o.result = .ok v) :
    successes (o :: os) = (o.place.consumed, v) :: successes os := by
  rw [successes, List.filterMap_cons]
  simp only [Outcome.success?, h, successes]

/-- In a search from the start, what is consumed tells the place. -/
theorem Source.Leads.eq_after {q : Place} (way : src.Leads (Place.after i) q) :
    q = Place.after q.consumed := by
  have hsum := way.consumed_add_next
  obtain ⟨c, n⟩ := q
  simp only [Place.after] at hsum ⊢
  obtain rfl : n = c := by omega
  rfl

/-! ### Enumerations -/

/-- Readings with their ends and values: all those that `D` allows, in the order `lt`, and
with the same ends and values as the successes among the outcomes. -/
structure Enumerates (D : X → Nat → α → Prop) (lt : X → X → Prop) (rs : List (X × Nat × α))
    (os : List (Outcome τ α)) : Prop where
  mem_iff : ∀ x j v, (x, j, v) ∈ rs ↔ D x j v
  results : rs.map (·.2) = successes os
  sorted : rs.Pairwise fun a b => lt a.1 b.1

namespace Enumerates

theorem nothing (hD : ∀ x j v, ¬ D x j v) (hos : successes os = []) : Enumerates D lt [] os :=
  ⟨fun x j v => iff_of_false List.not_mem_nil (hD x j v), hos.symm, .nil⟩

theorem single {x₀ : X} {j₀ : Nat} {v₀ : α} (hD : ∀ x j v, D x j v ↔ x = x₀ ∧ j = j₀ ∧ v = v₀)
    (hos : successes os = [(j₀, v₀)]) : Enumerates D lt [(x₀, j₀, v₀)] os := by
  refine ⟨fun x j v => ?_, hos.symm, List.pairwise_singleton _ _⟩
  rw [List.mem_singleton, hD, Prod.mk.injEq, Prod.mk.injEq]

theorem congr (h : Enumerates D lt rs os) (hD : ∀ x j v, D' x j v ↔ D x j v)
    (hos : successes os' = successes os) : Enumerates D' lt rs os' :=
  ⟨fun x j v => (h.mem_iff x j v).trans (hD x j v).symm, h.results.trans hos.symm, h.sorted⟩

theorem append (h : Enumerates D lt rs os) (h' : Enumerates D' lt rs' os')
    (hlt : ∀ x j v x' j' v', D x j v → D' x' j' v' → lt x x') :
    Enumerates (fun x j v => D x j v ∨ D' x j v) lt (rs ++ rs') (os ++ os') := by
  refine ⟨fun x j v => ?_, ?_, List.pairwise_append.2 ⟨h.sorted, h'.sorted, ?_⟩⟩
  · rw [List.mem_append, h.mem_iff, h'.mem_iff]
  · rw [List.map_append, h.results, h'.results, successes_append]
  · intro a hx b hx'
    obtain ⟨x, j, v⟩ := a
    obtain ⟨x', j', v'⟩ := b
    exact hlt x j v x' j' v' ((h.mem_iff x j v).1 hx) ((h'.mem_iff x' j' v').1 hx')

theorem map {E : Y → Nat → α → Prop} {lt' : Y → Y → Prop} (h : Enumerates D lt rs os)
    (c : X → Y) (hE : ∀ y j v, E y j v ↔ ∃ x, y = c x ∧ D x j v)
    (hlt : ∀ x x', lt x x' → lt' (c x) (c x')) :
    Enumerates E lt' (rs.map fun a => (c a.1, a.2)) os := by
  refine ⟨fun y j v => ?_, ?_, List.pairwise_map.2 (h.sorted.imp (hlt _ _))⟩
  · rw [List.mem_map, hE]
    constructor
    · intro hreading
      obtain ⟨⟨x, j', v'⟩, hx, heq⟩ := hreading
      cases heq
      exact ⟨x, rfl, (h.mem_iff x j v).1 hx⟩
    · intro hreading
      obtain ⟨x, rfl, hx⟩ := hreading
      exact ⟨(x, j, v), (h.mem_iff x j v).2 hx, rfl⟩
  · rw [List.map_map]
    exact h.results

/-- One and the same first part before every reading. -/
theorem pair {lt' : Y → Y → Prop} {E : Y → Nat → α → Prop} {ys : List (Y × Nat × α)}
    (h : Enumerates E lt' ys os) (lt : X → X → Prop) (x : X) :
    Enumerates (fun (z : X × Y) k w => z.1 = x ∧ E z.2 k w)
      (fun z z' => lt z.1 z'.1 ∨ z.1 = z'.1 ∧ lt' z.2 z'.2)
      (ys.map fun a => ((x, a.1), a.2)) os := by
  refine h.map (Prod.mk x) ?_ fun y y' hlt => Or.inr ⟨rfl, hlt⟩
  intro a k w
  obtain ⟨x', y⟩ := a
  constructor
  · intro hreading
    obtain ⟨rfl, hE⟩ := hreading
    exact ⟨y, rfl, hE⟩
  · intro hreading
    obtain ⟨y', heq, hE⟩ := hreading
    cases heq
    exact ⟨rfl, hE⟩

/-- What goes on from each reading, in the order of the first parts and then of the second
ones. -/
theorem bind {E : Nat → α → Y → Nat → α → Prop} {lt' : Y → Y → Prop}
    (h : Enumerates D lt rs os) (next : α → Place → List (Outcome τ α))
    (hos : ∀ o ∈ os, o.Fits src (Place.after i))
    (hnext : ∀ j v, src.Leads (Place.after i) (Place.after j) →
      ∃ ys, Enumerates (E j v) lt' ys (next v (Place.after j))) :
    ∃ zs : List ((X × Y) × Nat × α),
      Enumerates (fun z k w => ∃ j v, D z.1 j v ∧ E j v z.2 k w)
        (fun z z' => lt z.1 z'.1 ∨ z.1 = z'.1 ∧ lt' z.2 z'.2) zs
        (os.flatMap (Outcome.followedBy next)) := by
  induction os generalizing rs D with
  | nil =>
      obtain rfl : rs = [] := List.map_eq_nil_iff.1 h.results
      refine ⟨[], .nothing ?_ rfl⟩
      intro z k w hreading
      obtain ⟨j, v, hD, -⟩ := hreading
      exact List.not_mem_nil ((h.mem_iff _ _ _).2 hD)
  | cons o os ih =>
      have hrest : ∀ o ∈ os, o.Fits src (Place.after i) :=
        fun o ho => hos o (List.mem_cons_of_mem _ ho)
      rw [List.flatMap_cons]
      cases hresult : o.result with
      | error e =>
          have hlater : Enumerates D lt rs os :=
            h.congr (fun _ _ _ => Iff.rfl) (successes_cons_error hresult).symm
          obtain ⟨zs, hzs⟩ := ih hlater hrest
          rw [Outcome.followedBy_error next hresult]
          exact ⟨zs, hzs.congr (fun _ _ _ => Iff.rfl) rfl⟩
      | ok v =>
          have hresults := h.results
          rw [successes_cons_ok hresult] at hresults
          obtain ⟨⟨x, stop⟩, rs, rfl, hstop, htail⟩ := List.map_eq_cons_iff.1 hresults
          cases hstop
          obtain ⟨hfirst, hsorted⟩ := List.pairwise_cons.1 h.sorted
          have hlater : Enumerates (fun x j v => (x, j, v) ∈ rs) lt rs os :=
            ⟨fun _ _ _ => Iff.rfl, htail, hsorted⟩
          obtain ⟨zs, hzs⟩ := ih hlater hrest
          -- the first reading goes on from where the first success ends
          have way := (hos o (List.mem_cons_self ..)).way
          have hafter := way.eq_after
          rw [hafter] at way
          obtain ⟨ys, hys⟩ := hnext _ v way
          rw [Outcome.followedBy_ok next hresult, hafter]
          refine ⟨_, ((hys.pair lt x).append hzs ?_).congr ?_ rfl⟩
          · intro a k w b k' w' hreading hreading'
            obtain ⟨x', y⟩ := a
            obtain ⟨x'', y'⟩ := b
            obtain ⟨rfl, -⟩ := hreading
            obtain ⟨j, u, hmem, -⟩ := hreading'
            exact Or.inl (hfirst _ hmem)
          · intro z k w
            simp only [← h.mem_iff, List.mem_cons, Prod.mk.injEq]
            constructor
            · intro hreading
              obtain ⟨j, u, ⟨hz, rfl, rfl⟩ | hmem, hE⟩ := hreading
              · exact Or.inl ⟨hz, hE⟩
              · exact Or.inr ⟨j, u, hmem, hE⟩
            · intro hreading
              rcases hreading with ⟨hz, hE⟩ | ⟨j, u, hmem, hE⟩
              · exact ⟨_, _, Or.inl ⟨hz, rfl, rfl⟩, hE⟩
              · exact ⟨j, u, Or.inr hmem, hE⟩

end Enumerates

/-! ### Readings -/

section Readings

/-- A tree of a rule that stays acyclic below a path. -/
def Reading (g : Grammar τ α σ) (tokens : List τ) (path : Path) (r : Rule) (i : Nat) (t : Tree)
    (j : Nat) (v : α) : Prop :=
  t.Fresh path ∧ Derives g tokens r i t j v

/-- Trees for the rest of a sequence after some values, and the value of the whole. -/
def SequenceReading (g : Grammar τ α σ) (tokens : List τ) (path : Path)
    (build : List α → Except Fault α) (rules : List Rule) (values : List α) (i : Nat)
    (ts : List Tree) (j : Nat) (w : α) : Prop :=
  (∀ t ∈ ts, t.Fresh path) ∧
    ∃ vs, DerivesAll g tokens rules i ts j vs ∧ build (values ++ vs) = .ok w

/-- Trees for one more item or several after some values, and the value of the whole run. -/
def RunReading (g : Grammar τ α σ) (tokens : List τ) (path : Path) (collect : List α → α)
    (item : Rule) (values : List α) (i : Nat) (ts : List Tree) (j : Nat) (w : α) : Prop :=
  (∀ t ∈ ts, t.Fresh path) ∧
    ∃ vs, DerivesRun g tokens item i ts j vs ∧ w = collect (values ++ vs)

/-- Trees for what comes after an item that took the tokens from `i` to `j`: nothing, or a
run that goes on from there. -/
def RestReading (g : Grammar τ α σ) (tokens : List τ) (path : Path) (collect : List α → α)
    (item : Rule) (values : List α) (i j : Nat) (v : α) (ts : List Tree) (k : Nat) (w : α) : Prop :=
  i < j ∧ (ts = [] ∧ k = j ∧ w = collect (values ++ [v]) ∨
    RunReading g tokens path collect item (values ++ [v]) j ts k w)

variable {g : Grammar τ α σ} {tokens : List τ} {path : Path} {build : List α → Except Fault α}
  {collect : List α → α} {item rule : Rule} {rules : List Rule} {values : List α} {k : Nat}
  {t : Tree} {ts : List Tree} {w : α}

theorem sequenceReading_nil : SequenceReading g tokens path build [] values i ts k w ↔
    ts = [] ∧ k = i ∧ build values = .ok w := by
  constructor
  · intro hreading
    obtain ⟨-, vs, hparts, hvalue⟩ := hreading
    cases hparts
    rw [List.append_nil] at hvalue
    exact ⟨rfl, rfl, hvalue⟩
  · intro hreading
    obtain ⟨rfl, rfl, hvalue⟩ := hreading
    refine ⟨List.forall_mem_nil _, [], .nil, ?_⟩
    rw [List.append_nil]
    exact hvalue

theorem sequenceReading_cons : SequenceReading g tokens path build (rule :: rules) values i ts k w ↔
    ∃ z : Tree × List Tree, ts = z.1 :: z.2 ∧ ∃ j v, Reading g tokens path rule i z.1 j v ∧
      SequenceReading g tokens path build rules (values ++ [v]) j z.2 k w := by
  constructor
  · intro hreading
    obtain ⟨hfresh, vs, hparts, hvalue⟩ := hreading
    cases hparts with
    | cons hfirst hrest =>
        obtain ⟨hfresh, hfreshs⟩ := List.forall_mem_cons.1 hfresh
        refine ⟨(_, _), rfl, _, _, ⟨hfresh, hfirst⟩, hfreshs, _, hrest, ?_⟩
        rw [List.append_assoc]
        exact hvalue
  · intro hreading
    obtain ⟨⟨t, ts⟩, rfl, j, v, ⟨hfresh, hfirst⟩, hfreshs, vs, hrest, hvalue⟩ := hreading
    refine ⟨List.forall_mem_cons.2 ⟨hfresh, hfreshs⟩, v :: vs, .cons hfirst hrest, ?_⟩
    rw [List.append_assoc] at hvalue
    exact hvalue

theorem runReading_iff : RunReading g tokens path collect item values i ts k w ↔
    ∃ z : Tree × List Tree, ts = z.1 :: z.2 ∧ ∃ j v, Reading g tokens path item i z.1 j v ∧
      RestReading g tokens path collect item values i j v z.2 k w := by
  constructor
  · intro hreading
    obtain ⟨hfresh, vs, hrun, rfl⟩ := hreading
    cases hrun with
    | last hitem hlt =>
        have hfresh := hfresh _ (List.mem_singleton_self _)
        exact ⟨(_, []), rfl, _, _, ⟨hfresh, hitem⟩, hlt, Or.inl ⟨rfl, rfl, rfl⟩⟩
    | more hitem hlt hrest =>
        obtain ⟨hfresh, hfreshs⟩ := List.forall_mem_cons.1 hfresh
        refine ⟨(_, _), rfl, _, _, ⟨hfresh, hitem⟩, hlt, Or.inr ⟨hfreshs, _, hrest, ?_⟩⟩
        rw [List.append_assoc]
        rfl
  · intro hreading
    obtain ⟨⟨t, ts⟩, rfl, j, v, ⟨hfresh, hitem⟩, hlt, hrest⟩ := hreading
    rcases hrest with ⟨hnil, rfl, rfl⟩ | ⟨hfreshs, vs, hrest, rfl⟩
    · cases hnil
      refine ⟨fun t' ht' => ?_, [v], .last hitem hlt, rfl⟩
      cases List.mem_singleton.1 ht'
      exact hfresh
    · refine ⟨List.forall_mem_cons.2 ⟨hfresh, hfreshs⟩, v :: vs, .more hitem hlt hrest, ?_⟩
      rw [List.append_assoc]
      rfl

theorem not_runReading_nil : ¬ RunReading g tokens path collect item values i [] k w := by
  intro hreading
  obtain ⟨-, vs, hrun, -⟩ := hreading
  cases hrun

end Readings

/-! ### Forms -/

section Forms

variable {g : Grammar τ α σ} {tokens : List τ} {path : Path} {info : RuleInfo}
  {use : Rule → Place → List (Outcome τ α)} {attempt : Place → List (Outcome τ α)}

/-- The rest of a sequence enumerates how its rules match one after another. -/
theorem enumerates_sequence (hfits : ∀ r q, ∀ o ∈ use r q, o.Fits (Source.ofList tokens) q)
    (huse : ∀ r j, (Source.ofList tokens).Leads (Place.after i) (Place.after j) →
      ∃ rs, Enumerates (Reading g tokens path r j) Tree.Before rs (use r (Place.after j)))
    (build : List α → Except Fault α) (rules : List Rule) (values : List α)
    (way : (Source.ofList tokens).Leads (Place.after i) (Place.after j)) :
    ∃ rs, Enumerates (SequenceReading g tokens path build rules values j) Tree.BeforeAll rs
      (sequenceOutcomes use build rules values (Place.after j)) := by
  induction rules generalizing values j with
  | nil =>
      rw [sequenceOutcomes]
      cases hbuild : build values with
      | error f =>
          refine ⟨[], .nothing (fun ts k w hreading => ?_) rfl⟩
          obtain ⟨-, -, hvalue⟩ := sequenceReading_nil.1 hreading
          rw [hbuild] at hvalue
          cases hvalue
      | ok w =>
          refine ⟨[([], j, w)], .single (fun ts k w' => ?_) rfl⟩
          rw [sequenceReading_nil, hbuild, Except.ok.injEq, eq_comm (a := w)]
  | cons rule rules ih =>
      obtain ⟨xs, hxs⟩ := huse rule j way
      obtain ⟨zs, hzs⟩ := hxs.bind _ (hfits rule _)
        (fun k v way' => ih (values ++ [v]) (way.trans way'))
      refine ⟨_, hzs.map (fun z => z.1 :: z.2) (fun ts k w => sequenceReading_cons) ?_⟩
      intro z z' hlt
      unfold Tree.BeforeAll
      exact hlt

/-- What comes of one more item enumerates the run that ends with it and those that go on,
if the item takes a token. -/
theorem enumerates_runsAfter {item : Rule} {collect : List α → α} {values : List α} {k : Nat}
    {v : α} (hle : j ≤ k)
    (hlater : j < k → ∃ ys,
      Enumerates (RunReading g tokens path collect item (values ++ [v]) k) Tree.BeforeAll ys
        (runs tokens attempt info collect (values ++ [v]) (Place.after k))) :
    ∃ ys, Enumerates (RestReading g tokens path collect item values j k v) Tree.BeforeAll ys
      (runsAfter tokens attempt info collect values j v (Place.after k)) := by
  rw [runsAfter, Place.consumed_after]
  by_cases hsame : k = j
  · rw [if_pos hsame]
    refine ⟨[], .nothing ?_ rfl⟩
    intro ts l w hreading
    obtain ⟨hlt, -⟩ := hreading
    omega
  · rw [if_neg hsame]
    have hlt : j < k := by omega
    obtain ⟨ys, hys⟩ := hlater hlt
    -- the run that ends here comes before all those that go on
    have hends : Enumerates (fun ts l w => ts = [] ∧ l = k ∧ w = collect (values ++ [v]))
        Tree.BeforeAll [([], k, collect (values ++ [v]))]
        [(.success (Place.after k) (collect (values ++ [v])) : Outcome τ α)] :=
      .single (fun _ _ _ => Iff.rfl) rfl
    refine ⟨_, (hends.append hys ?_).congr (fun _ _ _ => and_iff_right hlt) rfl⟩
    intro ts l w ts' l' w' hends' hreading
    obtain ⟨rfl, -⟩ := hends'
    cases ts' with
    | nil => exact absurd hreading not_runReading_nil
    | cons t ts => simp [Tree.BeforeAll]

/-- Runs enumerate how one item or more match, each with at least one token. -/
theorem enumerates_runs {item : Rule} {collect : List α → α}
    (hfits : ∀ q, ∀ o ∈ attempt q, o.Fits (Source.ofList tokens) q)
    (hattempt : ∀ j, (Source.ofList tokens).Leads (Place.after i) (Place.after j) →
      ∃ rs, Enumerates (Reading g tokens path item j) Tree.Before rs (attempt (Place.after j)))
    (values : List α) (way : (Source.ofList tokens).Leads (Place.after i) (Place.after j)) :
    ∃ rs, Enumerates (RunReading g tokens path collect item values j) Tree.BeforeAll rs
      (runs tokens attempt info collect values (Place.after j)) := by
  induction hn : tokens.length - j using Nat.strongRecOn generalizing values j with
  | ind n ih =>
      subst hn
      have hnext : ∀ k v, (Source.ofList tokens).Leads (Place.after j) (Place.after k) →
          ∃ ys, Enumerates (RestReading g tokens path collect item values j k v) Tree.BeforeAll ys
            (runsAfter tokens attempt info collect values j v (Place.after k)) := by
        intro k v way'
        refine enumerates_runsAfter way'.next_le fun hlt => ?_
        have hlen : j < tokens.length := by
          rcases way'.eq_or_lt_length with heq | ⟨-, hlen⟩
          · cases heq
            exact absurd hlt (Nat.lt_irrefl _)
          · exact hlen
        exact ih (tokens.length - k) (by omega) (values ++ [v]) (way.trans way') rfl
      rw [runs_eq hfits]
      obtain ⟨xs, hxs⟩ := hattempt j way
      obtain ⟨zs, hzs⟩ := hxs.bind _ (hfits _) hnext
      refine ⟨_, hzs.map (fun z => z.1 :: z.2) (fun ts l w => runReading_iff) ?_⟩
      intro z z' hlt
      unfold Tree.BeforeAll
      exact hlt

/-- A choice enumerates the trees of its alternatives, each with its index. -/
theorem enumerates_choice
    (huse : ∀ r, ∃ rs, Enumerates (Reading g tokens path r i) Tree.Before rs
      (use r (Place.after i))) (rules : List Rule) (n : Nat) :
    ∃ rs, Enumerates
      (fun (x : Nat × Tree) j v =>
        ∃ k r, x.1 = n + k ∧ rules[k]? = some r ∧ Reading g tokens path r i x.2 j v)
      (fun x y => x.1 < y.1 ∨ x.1 = y.1 ∧ Tree.Before x.2 y.2) rs
      (rules.flatMap fun r => use r (Place.after i)) := by
  induction rules generalizing n with
  | nil =>
      refine ⟨[], .nothing ?_ rfl⟩
      intro x j v hreading
      obtain ⟨k, r, -, hchoice, -⟩ := hreading
      cases hchoice
  | cons rule rules ih =>
      obtain ⟨ts, hts⟩ := huse rule
      obtain ⟨xs, hxs⟩ := ih (n + 1)
      rw [List.flatMap_cons]
      refine ⟨_, ((hts.pair (· < ·) n).append hxs ?_).congr ?_ rfl⟩
      · intro x j v x' j' v' hreading hreading'
        obtain ⟨hx, -⟩ := hreading
        obtain ⟨k, r, hx', -⟩ := hreading'
        left
        omega
      · intro x j v
        constructor
        · intro hreading
          obtain ⟨k, r, hx, hchoice, hreading⟩ := hreading
          -- the index counts from the first of all alternatives, not from here
          cases k with
          | zero =>
              cases hchoice
              exact Or.inl ⟨hx, hreading⟩
          | succ k => exact Or.inr ⟨k, r, by omega, hchoice, hreading⟩
        · intro hreading
          rcases hreading with ⟨hx, hreading⟩ | ⟨k, r, hx, hchoice, hreading⟩
          · exact ⟨0, rule, hx, rfl, hreading⟩
          · exact ⟨k + 1, r, by omega, hchoice, hreading⟩

/-- The choice and the parts of a node below a path, with parts that `P` allows. -/
def NodeReading (path : Path) (P : Nat → List Tree → Nat → α → Prop) (x : Nat × List Tree)
    (j : Nat) (v : α) : Prop :=
  (∀ t ∈ x.2, t.Fresh path) ∧ P x.1 x.2 j v

/-- The order of nodes: by choice, then by parts. -/
def NodeBefore (x y : Nat × List Tree) : Prop :=
  x.1 < y.1 ∨ x.1 = y.1 ∧ Tree.BeforeAll x.2 y.2

section Nodes

variable {P : Nat → List Tree → Nat → α → Prop}

theorem enumerates_leaf {j₀ : Nat} {v₀ : α}
    (hP : ∀ k ts j v, P k ts j v ↔ k = 0 ∧ ts = [] ∧ j = j₀ ∧ v = v₀)
    (hos : successes os = [(j₀, v₀)]) :
    Enumerates (NodeReading path P) NodeBefore [((0, []), j₀, v₀)] os := by
  refine .single ?_ hos
  intro a j v
  obtain ⟨k, ts⟩ := a
  rw [NodeReading, hP, Prod.mk.injEq]
  constructor
  · intro hreading
    obtain ⟨-, rfl, rfl, rfl, rfl⟩ := hreading
    exact ⟨⟨rfl, rfl⟩, rfl, rfl⟩
  · intro hreading
    obtain ⟨⟨rfl, rfl⟩, rfl, rfl⟩ := hreading
    exact ⟨List.forall_mem_nil _, rfl, rfl, rfl, rfl⟩

/-- A node with a single part, in the order of choices and parts. -/
theorem enumerates_child (Q : Nat → Tree → Nat → α → Prop) {rs : List ((Nat × Tree) × Nat × α)}
    (hP : ∀ k ts j v, P k ts j v ↔ ∃ t, ts = [t] ∧ Q k t j v)
    (h : Enumerates (fun x j v => x.2.Fresh path ∧ Q x.1 x.2 j v)
      (fun x y => x.1 < y.1 ∨ x.1 = y.1 ∧ Tree.Before x.2 y.2) rs os) :
    ∃ rs', Enumerates (NodeReading path P) NodeBefore rs' os := by
  refine ⟨_, h.map (fun x => (x.1, [x.2])) ?_ ?_⟩
  · intro a j v
    obtain ⟨k, ts⟩ := a
    rw [NodeReading, hP]
    constructor
    · intro hreading
      obtain ⟨hfresh, t, hts, hQ⟩ := hreading
      cases hts
      exact ⟨(k, t), rfl, hfresh t (List.mem_singleton_self t), hQ⟩
    · intro hreading
      obtain ⟨⟨k', t⟩, heq, hfresh, hQ⟩ := hreading
      cases heq
      exact ⟨List.forall_mem_singleton.2 hfresh, t, rfl, hQ⟩
  · intro a b hbefore
    obtain ⟨k, t⟩ := a
    obtain ⟨k', t'⟩ := b
    rcases hbefore with hlt | ⟨hsame, hlt⟩
    · exact Or.inl hlt
    · refine Or.inr ⟨hsame, ?_⟩
      simp only [Tree.BeforeAll]
      exact Or.inl hlt

/-- A node with a single part and no choice. -/
theorem enumerates_only {Q : Tree → Nat → α → Prop} {rs : List (Tree × Nat × α)}
    (hP : ∀ k ts j v, P k ts j v ↔ ∃ t, ts = [t] ∧ k = 0 ∧ Q t j v)
    (h : Enumerates (fun t j v => t.Fresh path ∧ Q t j v) Tree.Before rs os) :
    ∃ rs', Enumerates (NodeReading path P) NodeBefore rs' os :=
  enumerates_child (fun k t j v => k = 0 ∧ Q t j v) hP
    ((h.pair (· < ·) 0).congr (fun _ _ _ => and_left_comm) rfl)

/-- A node without a choice. -/
theorem enumerates_parts {Q : List Tree → Nat → α → Prop} {rs : List (List Tree × Nat × α)}
    (hP : ∀ k ts j v, P k ts j v ↔ k = 0 ∧ Q ts j v)
    (h : Enumerates (fun ts j v => (∀ t ∈ ts, t.Fresh path) ∧ Q ts j v) Tree.BeforeAll rs os) :
    ∃ rs', Enumerates (NodeReading path P) NodeBefore rs' os := by
  refine ⟨_, h.map (Prod.mk 0) ?_ fun ts ts' hlt => Or.inr ⟨rfl, hlt⟩⟩
  intro a j v
  obtain ⟨k, ts⟩ := a
  rw [NodeReading, hP]
  constructor
  · intro hreading
    obtain ⟨hfresh, rfl, hQ⟩ := hreading
    exact ⟨ts, rfl, hfresh, hQ⟩
  · intro hreading
    obtain ⟨ts', heq, hfresh, hQ⟩ := hreading
    cases heq
    exact ⟨hfresh, rfl, hQ⟩

end Nodes

/-- The value that a function gives, or nothing if it gives up. -/
theorem enumerates_ofValue (j : Nat) (value : Except Fault α) :
    ∃ rs, Enumerates (fun (_ : Unit) k w => k = j ∧ value = .ok w) (fun _ _ => False) rs
      (Outcome.ofValue (Place.after j) value : List (Outcome τ α)) := by
  cases value with
  | error f =>
      refine ⟨[], .nothing ?_ rfl⟩
      intro x k w hreading
      obtain ⟨-, hvalue⟩ := hreading
      cases hvalue
  | ok v =>
      refine ⟨[((), j, v)], .single (fun x k w => ?_) rfl⟩
      rw [Except.ok.injEq, eq_comm (a := v)]
      exact ⟨fun h => ⟨rfl, h⟩, fun h => h.2⟩

/-- Other values for the same trees, for as many as the function gives a value. -/
theorem enumerates_map {rs : List (Tree × Nat × α)} {inner : Rule}
    (hos : ∀ o ∈ os, o.Fits (Source.ofList tokens) (Place.after i)) (f : α → Except Fault α)
    (h : Enumerates (Reading g tokens path inner i) Tree.Before rs os) :
    ∃ rs', Enumerates
      (fun t j w => t.Fresh path ∧ ∃ v, Derives g tokens inner i t j v ∧ f v = .ok w)
      Tree.Before rs' (os.flatMap (Outcome.followedBy fun v q => Outcome.ofValue q (f v))) := by
  have hnext : ∀ j v, (Source.ofList tokens).Leads (Place.after i) (Place.after j) →
      ∃ ys, Enumerates (fun (_ : Unit) k w => k = j ∧ f v = .ok w) (fun _ _ => False) ys
        (Outcome.ofValue (Place.after j) (f v) : List (Outcome τ α)) :=
    fun j v _ => enumerates_ofValue j (f v)
  obtain ⟨zs, hzs⟩ := h.bind (fun v q => Outcome.ofValue q (f v)) hos hnext
  refine ⟨_, hzs.map Prod.fst ?_ ?_⟩
  · intro t j w
    constructor
    · intro hreading
      obtain ⟨hfresh, v, hderives, hvalue⟩ := hreading
      exact ⟨(t, ()), rfl, j, v, ⟨hfresh, hderives⟩, rfl, hvalue⟩
    · intro hreading
      obtain ⟨⟨t', u⟩, rfl, j', v, ⟨hfresh, hderives⟩, rfl, hvalue⟩ := hreading
      exact ⟨hfresh, v, hderives, hvalue⟩
  · intro z z' hbefore
    rcases hbefore with hlt | ⟨-, hfalse⟩
    · exact hlt
    · exact hfalse.elim

/-- A form enumerates the choices and the parts of its nodes. -/
theorem enumerates_form (info : RuleInfo)
    (hfits : ∀ r q, ∀ o ∈ use r q, o.Fits (Source.ofList tokens) q)
    (huse : ∀ r j, (Source.ofList tokens).Leads (Place.after i) (Place.after j) →
      ∃ rs, Enumerates (Reading g tokens path r j) Tree.Before rs (use r (Place.after j)))
    (form : Form τ α) :
    ∃ rs, Enumerates (NodeReading path (form.Parts g tokens i)) NodeBefore rs
      (form.outcomes g tokens info use (Place.after i)) := by
  cases form with
  | terminal accept =>
      simp only [Form.outcomes, Place.next_after]
      cases htoken : tokens[i]? with
      | none =>
          refine ⟨[], .nothing ?_ rfl⟩
          intro x j v hreading
          obtain ⟨-, -, -, -, t, hsome, -⟩ := hreading
          rw [htoken] at hsome
          cases hsome
      | some t =>
          dsimp only
          have hrefused : (∀ w, accept t ≠ .ok (some w)) →
              ∀ x j v, ¬ NodeReading path ((Form.terminal accept).Parts g tokens i) x j v := by
            rintro hno x j v ⟨-, -, -, -, t', hsome, hvalue⟩
            rw [htoken] at hsome
            cases hsome
            exact hno v hvalue
          rcases haccept : accept t with f | _ | w
          · exact ⟨[], .nothing (hrefused (by simp [haccept])) rfl⟩
          · exact ⟨[], .nothing (hrefused (by simp [haccept])) rfl⟩
          · refine ⟨[((0, []), i + 1, w)], enumerates_leaf (fun k ts j v => ?_) rfl⟩
            simp only [Form.Parts, htoken, Option.some.injEq, exists_eq_left', haccept,
              Except.ok.injEq, eq_comm (a := w)]
  | epsilon value => exact ⟨_, enumerates_leaf (fun _ _ _ _ => Iff.rfl) rfl⟩
  | endOfInput value =>
      simp only [Form.outcomes, Place.next_after]
      cases hend : tokens[i]? with
      | none =>
          refine ⟨[((0, []), i, value)], enumerates_leaf (fun k ts j v => ?_) rfl⟩
          simp only [Form.Parts, hend, true_and]
      | some t =>
          refine ⟨[], .nothing ?_ rfl⟩
          intro x j v hreading
          obtain ⟨-, -, -, -, hnone, -⟩ := hreading
          rw [hend] at hnone
          cases hnone
  | map inner f =>
      obtain ⟨ts, hts⟩ := huse inner i .refl
      obtain ⟨rs, hrs⟩ := enumerates_map (hfits inner _) f hts
      refine enumerates_only (fun k ts j w => ?_) hrs
      constructor
      · intro hreading
        obtain ⟨hk, t, v, hts, hderives, hvalue⟩ := hreading
        exact ⟨t, hts, hk, v, hderives, hvalue⟩
      · intro hreading
        obtain ⟨t, hts, hk, v, hderives, hvalue⟩ := hreading
        exact ⟨hk, t, v, hts, hderives, hvalue⟩
  | repetition item collect =>
      obtain ⟨rs, hrs⟩ := enumerates_runs (hfits item) (huse item) [] .refl
      exact enumerates_parts (fun _ _ _ _ => Iff.rfl) hrs
  | reference cell weak =>
      simp only [Form.outcomes]
      cases htarget : g.target cell with
      | rule r =>
          obtain ⟨ts, hts⟩ := huse r i .refl
          refine enumerates_only (fun k ts j v => ?_) hts
          constructor
          · intro hreading
            obtain ⟨hk, r', t, hsame, hts, hderives⟩ := hreading
            rw [htarget] at hsame
            cases hsame
            exact ⟨t, hts, hk, hderives⟩
          · intro hreading
            obtain ⟨t, hts, hk, hderives⟩ := hreading
            exact ⟨hk, r, t, htarget, hts, hderives⟩
      | _ =>
          refine ⟨[], .nothing ?_ rfl⟩
          intro x j v hreading
          obtain ⟨-, -, r, t, hrule, -⟩ := hreading
          rw [htarget] at hrule
          cases hrule
  | oneOf first others =>
      obtain ⟨rs, hrs⟩ := enumerates_choice (fun r => huse r i .refl) (first :: others) 0
      refine enumerates_child (fun k t j v => ∃ r, (first :: others)[k]? = some r ∧
        Derives g tokens r i t j v) (fun k ts j v => ?_) (hrs.congr (fun x j v => ?_) rfl)
      · constructor
        · intro hreading
          obtain ⟨r, t, hchoice, hts, hderives⟩ := hreading
          exact ⟨t, hts, r, hchoice, hderives⟩
        · intro hreading
          obtain ⟨t, hts, r, hchoice, hderives⟩ := hreading
          exact ⟨r, t, hchoice, hts, hderives⟩
      · constructor
        · intro hreading
          obtain ⟨hfresh, r, hchoice, hderives⟩ := hreading
          exact ⟨x.1, r, (Nat.zero_add _).symm, hchoice, hfresh, hderives⟩
        · intro hreading
          obtain ⟨k, r, hk, hchoice, hfresh, hderives⟩ := hreading
          rw [Nat.zero_add] at hk
          rw [hk]
          exact ⟨hfresh, r, hchoice, hderives⟩
  | sequence first others build =>
      obtain ⟨rs, hrs⟩ := enumerates_sequence hfits huse build (first :: others) [] .refl
      exact enumerates_parts (fun _ _ _ _ => Iff.rfl) hrs

end Forms

/-! ### Searches -/

variable {g g₀ : Grammar τ α σ}

/-- **The outcomes of a call enumerate the trees that are new below its trail.** -/
theorem enumerates_outcomes (g : Grammar τ α σ) (tokens : List τ) (r : Rule) (i : Nat)
    (path : Path) :
    ∃ rs, Enumerates (Reading g tokens path r i) Tree.Before rs
      (g.outcomes tokens r (Place.after i) path) := by
  induction h : g.height tokens (Place.after i) path using Nat.strongRecOn
    generalizing r i path with
  | ind n ih =>
      subst h
      rw [g.outcomes_eq]
      unfold Grammar.outcomesOnce
      split
      · next hnone =>
        refine ⟨[], .nothing ?_ rfl⟩
        intro t j v hreading
        obtain ⟨-, hderives⟩ := hreading
        cases hderives <;> simp_all
      · next info form hnode =>
        split
        · -- a tree would have the rule at this position twice on one way down
          next hheld =>
          refine ⟨[], .nothing ?_ rfl⟩
          intro t j v hreading
          obtain ⟨hfresh, hderives⟩ := hreading
          obtain ⟨k, ts, rfl, -⟩ := (derives_iff hnode).1 hderives
          exact (Tree.fresh_node.1 hfresh).1 (of_decide_eq_true hheld)
        · next hfresh =>
          rw [Bool.not_eq_true] at hfresh
          obtain ⟨rs, hrs⟩ := enumerates_form (g := g) info (fun r' q => g.outcomes_fits r' q _)
            (fun r' j way => ih _ (g.height_lt hnode hfresh way) r' j _ rfl) form
          refine ⟨_, hrs.map (fun x => .node info.id i x.1 x.2) ?_ ?_⟩
          · intro t j v
            rw [Reading, derives_iff hnode]
            constructor
            · intro hreading
              obtain ⟨hnew, k, ts, rfl, hparts⟩ := hreading
              exact ⟨(k, ts), rfl, (Tree.fresh_node.1 hnew).2, hparts⟩
            · intro hreading
              obtain ⟨⟨k, ts⟩, rfl, hnew, hparts⟩ := hreading
              exact ⟨Tree.fresh_node.2 ⟨of_decide_eq_false hfresh, hnew⟩, k, ts, rfl, hparts⟩
          · intro x y hlt
            unfold Tree.Before
            exact hlt

/-- **The successes of a stream are the acyclic derivation trees of its rule**: each tree
once, in order, with the end of its span and its value. -/
theorem successes_are_derivations (tokens : List τ) {r : Rule} (hstage : g₀.Stage g)
    (hr : g₀.Has r) (hcomplete : g.Complete r) (htotal : g.Total r) (trace : Trace) :
    ∃ (found : Array (Sighting τ α)) (t : State τ α) (trees : List (Tree × Nat × α)),
      Settles g (Source.ofList tokens) collect found t g₀ ⟨#[], none⟩
        (.calling r ⟨0, 0⟩ trace) ∧
      trees.map (·.2) = successes (found.toList.map (·.outcome)) ∧
      (∀ tree j v, (tree, j, v) ∈ trees ↔ tree.Acyclic ∧ Derives g tokens r 0 tree j v) ∧
      (trees.map (·.1)).Pairwise Tree.Before ∧ (trees.map (·.1)).Nodup := by
  obtain ⟨found, t, hsettles, hfound⟩ :=
    settles_outcomes tokens hstage hr hcomplete htotal ⟨0, 0⟩ .root 1 trace
  rw [Grammar.outcomes_entries r ⟨0, 0⟩ (.root 0)] at hfound
  obtain ⟨trees, hmem, hresults, hsorted⟩ := enumerates_outcomes g tokens r 0 []
  have hbefore : (trees.map (·.1)).Pairwise Tree.Before := List.pairwise_map.2 hsorted
  refine ⟨found, t, trees, hsettles, ?_, fun tree j v => ?_, hbefore, ?_⟩
  · rw [hfound]
    exact hresults
  · rw [hmem, Reading, Tree.fresh_nil]
  · refine hbefore.imp fun hlt heq => ?_
    rw [heq] at hlt
    exact Tree.not_before_self _ hlt

/-- The tree of a number of one digit, read by the rule that is made on demand. -/
def numberTree (i : Nat) : Tree := .node 2 i 0 [.node 7 i 0 [.node 6 i 0 []]]

/-- The tree of a sum of two such numbers, as a number and a shorter sum. -/
def sumTree : Tree :=
  .node 0 0 0 [.node 5 0 1 [.node 3 0 0
    [numberTree 0, .node 1 1 0 [], .node 0 2 0 [.node 5 2 0 [numberTree 2]]]]]

theorem derives_numberTree {tokens : List Char} {i : Nat} {c : Char} (htoken : tokens[i]? = some c)
    (hdigit : c.isDigit = true) :
    Derives Grammar.sums tokens ⟨2⟩ i (numberTree i) (i + 1) (Grammar.decimal [c.toNat - 48]) := by
  have hselect : Grammar.sums.node? ⟨7⟩ = some ⟨⟨6, .select, none⟩,
      .terminal fun c => .ok (if c.isDigit then some (c.toNat - 48) else none)⟩ := rfl
  have hrepetition : Grammar.sums.node? ⟨8⟩ = some ⟨⟨7, .repetition, none⟩,
      .repetition ⟨7⟩ Grammar.decimal⟩ := rfl
  have hlazy : Grammar.sums.node? ⟨2⟩ = some ⟨⟨2, .lazy, none⟩, .reference 1 false⟩ := rfl
  have hchar : Derives Grammar.sums tokens ⟨7⟩ i (.node 6 i 0 []) (i + 1) (c.toNat - 48) :=
    .terminal hselect htoken (congrArg Except.ok (if_pos hdigit))
  exact .reference hlazy rfl (.repetition hrepetition (.last hchar (Nat.lt_succ_self i)))

/-- `1+2` is a number, a sign and a shorter sum, and its value is `3`. -/
theorem derives_sumTree :
    Derives Grammar.sums ['1', '+', '2'] ⟨6⟩ 0 sumTree 3 (3 : Nat) := by
  have hjust : Grammar.sums.node? ⟨1⟩ = some ⟨⟨1, .just, none⟩,
      .terminal fun c => .ok (if c = '+' then some 0 else none)⟩ := rfl
  have hfirst : Derives Grammar.sums ['1', '+', '2'] ⟨2⟩ 0 (numberTree 0) 1 1 :=
    derives_numberTree (c := '1') rfl rfl
  have hsign : Derives Grammar.sums ['1', '+', '2'] ⟨1⟩ 1 (.node 1 1 0 []) 2 0 :=
    .terminal hjust rfl rfl
  have hsecond : Derives Grammar.sums ['1', '+', '2'] ⟨2⟩ 2 (numberTree 2) 3 2 :=
    derives_numberTree (c := '2') rfl rfl
  have hself : Grammar.sums.node? ⟨0⟩ = some ⟨⟨0, .recursive, none⟩, .reference 0 true⟩ := rfl
  have hroot : Grammar.sums.node? ⟨6⟩ = some ⟨⟨0, .recursive, none⟩, .reference 0 false⟩ := rfl
  have hchoice : Grammar.sums.node? ⟨5⟩ = some ⟨⟨5, .oneOf, none⟩, .oneOf ⟨2⟩ [⟨3⟩, ⟨4⟩]⟩ := rfl
  have hsequence : Grammar.sums.node? ⟨3⟩ = some ⟨⟨3, .sequence, none⟩,
      .sequence ⟨2⟩ [⟨1⟩, ⟨0⟩] fun vs => .ok vs.sum⟩ := rfl
  have hshorter : Derives Grammar.sums ['1', '+', '2'] ⟨0⟩ 2
      (.node 0 2 0 [.node 5 2 0 [numberTree 2]]) 3 2 :=
    .reference hself rfl (.oneOf hchoice rfl hsecond)
  have hparts := DerivesAll.cons hfirst (.cons hsign (.cons hshorter .nil))
  exact .reference hroot rfl (.oneOf hchoice rfl (.sequence hsequence hparts rfl))

/-- A sum is found once, with its value, by a search that starts with a left-recursive and
ambiguous grammar before the rule for numbers has been made. -/
theorem sums_successes_are_derivations :
    Grammar.sumsAtFirst.Stage Grammar.sums ∧ Grammar.sumsAtFirst.Has ⟨6⟩ ∧
    Grammar.sums.Complete ⟨6⟩ ∧ Grammar.sums.Total ⟨6⟩ ∧
    ∃ (found : Array (Sighting Char Nat)) (t : State Char Nat) (trees : List (Tree × Nat × Nat)),
      Settles Grammar.sums (Source.ofList ['1', '+', '2']) collect found t Grammar.sumsAtFirst
        ⟨#[], none⟩ (.calling ⟨6⟩ ⟨0, 0⟩ .silent) ∧
      trees.map (·.2) = successes (found.toList.map (·.outcome)) ∧
      (trees.map (·.1)).Nodup ∧ (sumTree, 3, 3) ∈ trees := by
  obtain ⟨found, t, trees, hsettles, hresults, hmem, -, hnodup⟩ :=
    successes_are_derivations ['1', '+', '2'] Grammar.sums_stage ⟨_, rfl⟩ Grammar.sums_complete
      Grammar.sums_total .silent
  exact ⟨Grammar.sums_stage, ⟨_, rfl⟩, Grammar.sums_complete, Grammar.sums_total, found, t, trees,
    hsettles, hresults, hnodup, (hmem _ _ _).2 ⟨by decide, derives_sumTree⟩⟩

end LazyGrammar

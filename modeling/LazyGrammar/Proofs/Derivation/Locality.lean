import LazyGrammar.Proofs.Derivation.Enumeration
import Mathlib.Data.List.Sort

/-!
# LazyGrammar.Proofs.Derivation.Locality

**What a match depends on.** A derivation tree reads the tokens of its span and no others,
unless a rule in it asks for the end of the input (`Derives.congr`). So the trees of a rule
over an input are those over any longer input which end within it, and a search finds them
with the same values and in the same order, whatever else the longer input lets it find in
between.

Design points:

* The order in which trees are found does not look at the input (`Tree.Before`). This is what
  keeps successes in order where the outcomes of two inputs have nothing else in common.
-/

namespace LazyGrammar

variable {τ α σ : Type}

/-! ### The order of trees -/

namespace Tree

mutual
theorem before_asymm : ∀ t t' : Tree, Before t t' → ¬ Before t' t
  | .node _ _ choice parts, .node _ _ choice' parts' => by
      unfold Before
      intro hbefore hafter
      rcases hbefore with hlt | ⟨hsame, hparts⟩ <;> rcases hafter with hlt' | ⟨hsame', hparts'⟩
      · omega
      · omega
      · omega
      · exact beforeAll_asymm parts parts' hparts hparts'
theorem beforeAll_asymm : ∀ ts ts' : List Tree, BeforeAll ts ts' → ¬ BeforeAll ts' ts
  | [], [] => by
      unfold BeforeAll
      exact fun h => h.elim
  | [], _ :: _ => by
      unfold BeforeAll
      exact fun _ => id
  | _ :: _, [] => by
      unfold BeforeAll
      exact fun h => h.elim
  | t :: ts, t' :: ts' => by
      unfold BeforeAll
      intro hbefore hafter
      rcases hbefore with hfirst | ⟨rfl, hrest⟩ <;> rcases hafter with hfirst' | ⟨heq, hrest'⟩
      · exact before_asymm t t' hfirst hfirst'
      · subst heq
        exact not_before_self _ hfirst
      · exact not_before_self _ hfirst'
      · exact beforeAll_asymm ts ts' hrest hrest'
end

end Tree

/-- Readings in the order of their trees are known by what they hold. -/
theorem eq_of_mem_iff_of_before {rs rs' : List (Tree × Nat × α)}
    (h : rs.Pairwise fun a b => a.1.Before b.1) (h' : rs'.Pairwise fun a b => a.1.Before b.1)
    (hmem : ∀ a, a ∈ rs ↔ a ∈ rs') : rs = rs' := by
  have : Std.Irrefl fun a b : Tree × Nat × α => a.1.Before b.1 :=
    ⟨fun a => Tree.not_before_self a.1⟩
  have : Std.Antisymm fun a b : Tree × Nat × α => a.1.Before b.1 :=
    ⟨fun a b hlt hlt' => absurd hlt' (Tree.before_asymm a.1 b.1 hlt)⟩
  exact h.eq_of_mem_iff h' hmem

/-! ### Rules that do not ask for the end -/

namespace Grammar

variable {g : Grammar τ α σ} {r r' : Rule}

/-- No rule below the root asks for the end of the input. -/
def Endless (g : Grammar τ α σ) (root : Rule) : Prop :=
  ∀ r info value, g.Reaches root r → g.node? r ≠ some ⟨info, .endOfInput value⟩

theorem Endless.of_uses (h : g.Endless r) (hu : g.Uses r r') : g.Endless r' :=
  fun r'' info value hr' => h r'' info value ((Relation.ReflTransGen.single hu).trans hr')

theorem Endless.of_part {node : Node τ α} (h : g.Endless r) (hnode : g.node? r = some node)
    (hpart : r' ∈ node.form.parts) : g.Endless r' :=
  h.of_uses (.part hnode hpart)

/-- A grammar without such rules has none below any root. -/
theorem endless_of_all
    (h : ∀ node ∈ g.nodes.toList, ∀ value, node.form ≠ .endOfInput value) (root : Rule) :
    g.Endless root := by
  intro r info value _ hnode
  exact h _ (Array.mem_toList_iff.2 (Array.mem_of_getElem? hnode)) value rfl

end Grammar

/-! ### Spans -/

section Spans

variable {g : Grammar τ α σ} {tokens tokens' : List τ} {r : Rule} {rules : List Rule}
  {i j : Nat} {t : Tree} {ts : List Tree} {v : α} {vs : List α}

mutual
/-- A tree ends after it starts, and within the input. -/
theorem Derives.span {r i t j v} (h : Derives g tokens r i t j v) :
    i ≤ j ∧ j ≤ max i tokens.length := by
  cases h with
  | terminal _ htoken =>
      have hlt := (List.getElem?_eq_some_iff.1 htoken).1
      omega
  | epsilon | endOfInput => omega
  | map _ hinner _ | reference _ _ hinner | oneOf _ _ hinner => exact hinner.span
  | repetition _ hitems => exact hitems.span
  | sequence _ hparts _ => exact hparts.span
theorem DerivesAll.span {rules i ts j vs} (h : DerivesAll g tokens rules i ts j vs) :
    i ≤ j ∧ j ≤ max i tokens.length := by
  cases h with
  | nil => omega
  | cons hfirst hrest =>
      have := hfirst.span
      have := hrest.span
      omega
theorem DerivesRun.span {r i ts j vs} (h : DerivesRun g tokens r i ts j vs) :
    i ≤ j ∧ j ≤ max i tokens.length := by
  cases h with
  | last hitem => exact hitem.span
  | more hitem _ hrest =>
      have := hitem.span
      have := hrest.span
      omega
end

mutual
/-- **A tree reads the tokens of its span only.** -/
theorem Derives.congr {r i t j v} (h : Derives g tokens r i t j v) (hendless : g.Endless r)
    (hsame : ∀ n, i ≤ n → n < j → tokens'[n]? = tokens[n]?) : Derives g tokens' r i t j v := by
  cases h with
  | terminal hnode htoken hvalue =>
      exact .terminal hnode ((hsame i (Nat.le_refl i) (Nat.lt_succ_self i)).trans htoken) hvalue
  | epsilon hnode => exact .epsilon hnode
  | endOfInput hnode => exact absurd hnode (hendless r _ _ .refl)
  | map hnode hinner hvalue =>
      have hpart := hendless.of_part hnode (List.mem_singleton_self _)
      exact .map hnode (hinner.congr hpart hsame) hvalue
  | repetition hnode hitems =>
      have hpart := hendless.of_part hnode (List.mem_singleton_self _)
      exact .repetition hnode (hitems.congr hpart hsame)
  | reference hnode htarget hinner =>
      exact .reference hnode htarget
        (hinner.congr (hendless.of_uses (.target hnode htarget)) hsame)
  | oneOf hnode hchoice hinner =>
      have hpart := hendless.of_part hnode (List.mem_of_getElem? hchoice)
      exact .oneOf hnode hchoice (hinner.congr hpart hsame)
  | sequence hnode hparts hvalue =>
      exact .sequence hnode (hparts.congr (fun _ hr => hendless.of_part hnode hr) hsame) hvalue
theorem DerivesAll.congr {rules i ts j vs} (h : DerivesAll g tokens rules i ts j vs)
    (hendless : ∀ r ∈ rules, g.Endless r)
    (hsame : ∀ n, i ≤ n → n < j → tokens'[n]? = tokens[n]?) :
    DerivesAll g tokens' rules i ts j vs := by
  cases h with
  | nil => exact .nil
  | cons hfirst hrest =>
      rw [List.forall_mem_cons] at hendless
      have := hfirst.span
      have := hrest.span
      exact .cons (hfirst.congr hendless.1 fun n hle hlt => hsame n hle (by omega))
        (hrest.congr hendless.2 fun n hle hlt => hsame n (by omega) hlt)
theorem DerivesRun.congr {r i ts j vs} (h : DerivesRun g tokens r i ts j vs)
    (hendless : g.Endless r) (hsame : ∀ n, i ≤ n → n < j → tokens'[n]? = tokens[n]?) :
    DerivesRun g tokens' r i ts j vs := by
  cases h with
  | last hitem hlt => exact .last (hitem.congr hendless hsame) hlt
  | more hitem hlt hrest =>
      have := hrest.span
      exact .more (hitem.congr hendless fun n hle hlt => hsame n hle (by omega)) hlt
        (hrest.congr hendless fun n hle hlt => hsame n (by omega) hlt)
end

/-- The trees over an input are those over a longer one that end within it. -/
theorem derives_append_iff (hendless : g.Endless r) (xs ys : List τ) :
    Derives g (xs ++ ys) r 0 t j v ∧ j ≤ xs.length ↔ Derives g xs r 0 t j v := by
  have hsame : ∀ n < xs.length, (xs ++ ys)[n]? = xs[n]? :=
    fun n hlt => List.getElem?_append_left hlt
  constructor
  · rintro ⟨h, hj⟩
    exact h.congr hendless fun n _ hlt => (hsame n (by omega)).symm
  · intro h
    have := h.span
    exact ⟨h.congr hendless fun n _ hlt => hsame n (by omega), by omega⟩

end Spans

/-! ### Searches -/

variable {g g₀ : Grammar τ α σ}

/-- **Successes depend on the tokens that they consume only.** The successes over an input are
those over a longer input that end within it, as often and in the same order. -/
theorem successes_are_local (xs ys : List τ) {r : Rule} (hstage : g₀.Stage g) (hr : g₀.Has r)
    (hcomplete : g.Complete r) (htotal : g.Total r) (hendless : g.Endless r) (trace : Trace) :
    ∃ (found : Array (Sighting τ α)) (t : State τ α) (found' : Array (Sighting τ α))
      (t' : State τ α),
      Settles g (Source.ofList xs) collect found t g₀ ⟨#[], none⟩ (.calling r ⟨0, 0⟩ trace) ∧
      Settles g (Source.ofList (xs ++ ys)) collect found' t' g₀ ⟨#[], none⟩
        (.calling r ⟨0, 0⟩ trace) ∧
      successes (found.toList.map (·.outcome))
        = (successes (found'.toList.map (·.outcome))).filter (·.1 ≤ xs.length) := by
  have hsettles := fun tokens =>
    settles_outcomes tokens hstage hr hcomplete htotal ⟨0, 0⟩ .root 1 trace
  obtain ⟨found, t, hshort, hfound⟩ := hsettles xs
  obtain ⟨found', t', hlong, hfound'⟩ := hsettles (xs ++ ys)
  refine ⟨found, t, found', t', hshort, hlong, ?_⟩
  rw [Grammar.outcomes_entries r ⟨0, 0⟩ (.root 0)] at hfound hfound'
  obtain ⟨trees, hmem, hresults, hsorted⟩ := enumerates_outcomes g xs r 0 []
  obtain ⟨trees', hmem', hresults', hsorted'⟩ := enumerates_outcomes g (xs ++ ys) r 0 []
  have htrees : trees = trees'.filter (·.2.1 ≤ xs.length) := by
    refine eq_of_mem_iff_of_before hsorted (hsorted'.filter _) ?_
    rintro ⟨tree, j, v⟩
    rw [List.mem_filter, decide_eq_true_iff, hmem, hmem', Reading, Reading, and_assoc,
      derives_append_iff hendless]
  rw [hfound, hfound']
  calc successes (g.outcomes xs r ⟨0, 0⟩ Crumbs.root.entries)
      = trees.map (·.2) := hresults.symm
    _ = (trees'.map (·.2)).filter (·.1 ≤ xs.length) := by rw [htrees, List.filter_map]; rfl
    _ = _ := by rw [hresults']; rfl

/-- The numbers and sums in `1+2` are those in `1+2+3` that end with the third character. -/
theorem sums_successes_are_local :
    Grammar.sumsAtFirst.Stage Grammar.sums ∧ Grammar.sumsAtFirst.Has ⟨6⟩ ∧
    Grammar.sums.Complete ⟨6⟩ ∧ Grammar.sums.Total ⟨6⟩ ∧ Grammar.sums.Endless ⟨6⟩ ∧
    ∃ (found : Array (Sighting Char Nat)) (t : State Char Nat) (found' : Array (Sighting Char Nat))
      (t' : State Char Nat),
      Settles Grammar.sums (Source.ofList ['1', '+', '2']) collect found t Grammar.sumsAtFirst
        ⟨#[], none⟩ (.calling ⟨6⟩ ⟨0, 0⟩ .silent) ∧
      Settles Grammar.sums (Source.ofList ['1', '+', '2', '+', '3']) collect found' t'
        Grammar.sumsAtFirst ⟨#[], none⟩ (.calling ⟨6⟩ ⟨0, 0⟩ .silent) ∧
      successes (found.toList.map (·.outcome))
        = (successes (found'.toList.map (·.outcome))).filter (·.1 ≤ 3) := by
  have hendless : Grammar.sums.Endless ⟨6⟩ := by
    refine Grammar.endless_of_all ?_ _
    simp [Grammar.sums, Grammar.sumsAtFirst]
  exact ⟨Grammar.sums_stage, ⟨_, rfl⟩, Grammar.sums_complete, Grammar.sums_total, hendless,
    successes_are_local ['1', '+', '2'] ['+', '3'] Grammar.sums_stage ⟨_, rfl⟩
      Grammar.sums_complete Grammar.sums_total hendless .silent⟩

end LazyGrammar

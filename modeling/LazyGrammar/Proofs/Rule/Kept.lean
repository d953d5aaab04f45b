import Mathlib.Data.Finset.Card
import Mathlib.Data.Finset.Range
import LazyGrammar.Proofs.Rule.Reach
import LazyGrammar.Rule.Recursive

/-!
# LazyGrammar.Proofs.Rule.Kept

**What keeps a recursive rule.** A search through the grammar marks whatever some rules keep
(`marked_kept_iff`). So a recursive rule is released exactly if nothing that refers to it is kept
by the given rules or by a circle of rules (`cells_release`).

The search ends after a number of rounds. That these are enough is counted in the rules that are
not marked yet: every round but the last marks another one.
-/

namespace LazyGrammar

variable {τ α σ : Type} {g : Grammar τ α σ} {r r' : Rule} {rules roots frontier : List Rule}
  {marks : Array Bool} {cell : CellId}

/-! ### Marks -/

/-- The place of a rule is marked. -/
def Marked (marks : Array Bool) (r : Rule) : Prop := marks[r.node]? = some true

/-- The places that are not marked. -/
def unmarked (marks : Array Bool) : Finset Nat :=
  (Finset.range marks.size).filter fun i => marks[i]? ≠ some true

theorem marked_iff_getD : marks.getD r.node false = true ↔ Marked marks r := by
  rw [Marked, Array.getD_eq_getD_getElem?]
  cases marks[r.node]? <;> simp

theorem marked_setIfInBounds (hlt : r.node < marks.size) :
    Marked (marks.setIfInBounds r.node true) r' ↔ r' = r ∨ Marked marks r' := by
  rw [Marked, Array.getElem?_setIfInBounds]
  by_cases heq : r.node = r'.node
  · have hsame : r' = r := congrArg Rule.mk heq.symm
    simp [hsame, hlt]
  · have hne : r' ≠ r := fun h => heq (congrArg Rule.node h.symm)
    rw [if_neg heq, Marked]
    exact (or_iff_right hne).symm

namespace Grammar

@[simp] theorem size_markNew (marks : Array Bool) (rules : List Rule) :
    (markNew marks rules).1.size = marks.size := by
  induction rules generalizing marks with
  | nil => rfl
  | cons r rest ih =>
      unfold markNew
      split
      · exact ih marks
      · exact (ih _).trans Array.size_setIfInBounds

/-- Either a place need not be marked, because it is marked or not there, or it is a new one. -/
theorem getD_true : marks.getD r.node true = true ↔ Marked marks r ∨ marks.size ≤ r.node := by
  rw [Marked, Array.getD_eq_getD_getElem?]
  rcases Nat.lt_or_ge r.node marks.size with hlt | hle
  · simp [hlt]
  · simp [hle]

/-- What is marked after some rules have been. -/
theorem marked_markNew : Marked (markNew marks rules).1 r ↔
    Marked marks r ∨ r ∈ rules ∧ r.node < marks.size := by
  induction rules generalizing marks with
  | nil => simp [markNew]
  | cons first rest ih =>
      unfold markNew
      split
      · next hskip =>
        rw [ih, List.mem_cons]
        rcases getD_true.1 hskip with hmarked | hout
        · constructor
          · exact fun h => h.imp_right (And.imp_left Or.inr)
          · rintro (h | ⟨rfl | h, hlt⟩)
            · exact Or.inl h
            · exact Or.inl hmarked
            · exact Or.inr ⟨h, hlt⟩
        · refine or_congr_right (and_congr_left fun hlt => (or_iff_right ?_).symm)
          rintro rfl
          exact Nat.not_lt.2 hout hlt
      · next hnew =>
        have hlt : first.node < marks.size :=
          Nat.lt_of_not_le fun hle => hnew (getD_true.2 (Or.inr hle))
        dsimp only
        rw [ih, marked_setIfInBounds hlt, Array.size_setIfInBounds, List.mem_cons]
        constructor
        · rintro ((rfl | h) | ⟨h, hlt'⟩)
          · exact Or.inr ⟨Or.inl rfl, hlt⟩
          · exact Or.inl h
          · exact Or.inr ⟨Or.inr h, hlt'⟩
        · rintro (h | ⟨rfl | h, hlt'⟩)
          · exact Or.inl (Or.inr h)
          · exact Or.inl (Or.inl rfl)
          · exact Or.inr ⟨h, hlt'⟩

/-- A rule that has just been marked is given back. -/
theorem mem_markNew (hr : r ∈ rules) (hlt : r.node < marks.size) (hnew : ¬ Marked marks r) :
    r ∈ (markNew marks rules).2 := by
  induction rules generalizing marks with
  | nil => cases hr
  | cons first rest ih =>
      unfold markNew
      split
      · next hskip =>
        rcases List.mem_cons.1 hr with rfl | hrest
        · rcases getD_true.1 hskip with hmarked | hout
          · exact absurd hmarked hnew
          · exact absurd hlt (Nat.not_lt.2 hout)
        · exact ih hrest hlt hnew
      · next hfirst =>
        rcases List.mem_cons.1 hr with rfl | hrest
        · exact List.mem_cons_self ..
        · by_cases heq : r = first
          · exact List.mem_cons.2 (Or.inl heq)
          · have hlt' : first.node < marks.size :=
              Nat.lt_of_not_le fun hle => hfirst (getD_true.2 (Or.inr hle))
            refine List.mem_cons_of_mem _ (ih hrest ?_ fun h => ?_)
            · rwa [Array.size_setIfInBounds]
            · exact ((marked_setIfInBounds hlt').1 h).elim heq hnew

theorem of_mem_markNew (hr : r ∈ (markNew marks rules).2) :
    r ∈ rules ∧ r.node < marks.size ∧ ¬ Marked marks r := by
  induction rules generalizing marks with
  | nil => cases hr
  | cons first rest ih =>
      unfold markNew at hr
      split at hr
      · exact (ih hr).imp_left (List.mem_cons_of_mem _)
      · next hfirst =>
        have hlt : first.node < marks.size :=
          Nat.lt_of_not_le fun hle => hfirst (getD_true.2 (Or.inr hle))
        rcases List.mem_cons.1 hr with rfl | hrest
        · exact ⟨List.mem_cons_self .., hlt, fun h => hfirst (getD_true.2 (Or.inl h))⟩
        · obtain ⟨hmem, hsize, hnot⟩ := ih hrest
          rw [Array.size_setIfInBounds] at hsize
          exact ⟨List.mem_cons_of_mem _ hmem, hsize,
            fun h => hnot ((marked_setIfInBounds hlt).2 (Or.inr h))⟩

/-! ### Rounds -/

/-- A rule keeps another one directly. -/
def Keeps (g : Grammar τ α σ) (r r' : Rule) : Prop := r' ∈ g.keeps r

/-- What a rule keeps has to be marked once it is marked itself, unless it is in the frontier. -/
structure Spreads (g : Grammar τ α σ) (marks : Array Bool) (frontier : List Rule) : Prop where
  size : marks.size = g.nodes.size
  next : ∀ {r r'}, Marked marks r → g.Keeps r r' → r'.node < marks.size →
    r ∈ frontier ∨ Marked marks r'

theorem Spreads.round (h : g.Spreads marks frontier) :
    g.Spreads (markNew marks (frontier.flatMap g.keeps)).1
      (markNew marks (frontier.flatMap g.keeps)).2 where
  size := (size_markNew _ _).trans h.size
  next := by
    intro r r' hr hkeeps hlt
    rw [size_markNew] at hlt
    rcases Classical.em (Marked marks r) with hold | hnew
    · right
      rw [marked_markNew]
      rcases h.next hold hkeeps hlt with hfrontier | hmarked
      · exact Or.inr ⟨List.mem_flatMap.2 ⟨r, hfrontier, hkeeps⟩, hlt⟩
      · exact Or.inl hmarked
    · obtain ⟨hmem, hlt'⟩ := (marked_markNew.1 hr).resolve_left hnew
      exact Or.inl (mem_markNew hmem hlt' hnew)

/-- Rules that are marked make fewer that are not. -/
theorem card_unmarked_lt (hfresh : r ∈ (markNew marks rules).2) :
    (unmarked (markNew marks rules).1).card < (unmarked marks).card := by
  obtain ⟨hmem, hlt, hnew⟩ := of_mem_markNew hfresh
  refine Finset.card_lt_card (Finset.ssubset_iff_subset_ne.2 ⟨fun i hi => ?_, fun heq => ?_⟩)
  · rw [unmarked, Finset.mem_filter, Finset.mem_range, size_markNew] at hi
    rw [unmarked, Finset.mem_filter, Finset.mem_range]
    exact ⟨hi.1, fun hmarked => hi.2 (marked_markNew (r := ⟨i⟩).2 (Or.inl hmarked))⟩
  · have hr : r.node ∈ unmarked marks :=
      Finset.mem_filter.2 ⟨Finset.mem_range.2 hlt, hnew⟩
    rw [← heq] at hr
    exact (Finset.mem_filter.1 hr).2 (marked_markNew.2 (Or.inr ⟨hmem, hlt⟩))

theorem markKept_nil (g : Grammar τ α σ) (n : Nat) (marks : Array Bool) :
    g.markKept n marks [] = marks := by
  cases n <;> rfl

theorem marked_markKept_of_marked (n : Nat) (hr : Marked marks r) :
    Marked (g.markKept n marks frontier) r := by
  induction n generalizing marks frontier with
  | zero => exact hr
  | succ n ih =>
      cases frontier with
      | nil => exact hr
      | cons first rest => exact ih (marked_markNew.2 (Or.inl hr))

/-- Nothing is marked but what the marked rules lead to. -/
theorem markKept_sound {P : Rule → Prop} (hP : ∀ {r r'}, P r → g.Keeps r r' → P r') (n : Nat)
    (hmarks : ∀ r, Marked marks r → P r) (hfrontier : ∀ r ∈ frontier, P r)
    (hr : Marked (g.markKept n marks frontier) r) : P r := by
  induction n generalizing marks frontier with
  | zero => exact hmarks r hr
  | succ n ih =>
      cases frontier with
      | nil => exact hmarks r hr
      | cons first rest =>
          have hnext : ∀ r' ∈ (first :: rest).flatMap g.keeps, P r' := by
            intro r' hr'
            obtain ⟨r₀, hr₀, hkeeps⟩ := List.mem_flatMap.1 hr'
            exact hP (hfrontier r₀ hr₀) hkeeps
          refine ih (fun r' hr' => ?_) (fun r' hr' => hnext r' (of_mem_markNew hr').1) hr
          exact (marked_markNew.1 hr').elim (hmarks r') fun h => hnext r' h.1

/-- Enough rounds get to marks that nothing leads out of. -/
theorem Spreads.closed (h : g.Spreads marks frontier) {n : Nat}
    (henough : (unmarked marks).card ≤ n) : g.Spreads (g.markKept n marks frontier) [] := by
  induction n generalizing marks frontier with
  | zero =>
      refine ⟨h.size, fun {r r'} _ _ hlt => Or.inr (Classical.not_not.1 fun hnot => ?_)⟩
      have hmem : r'.node ∈ unmarked marks := Finset.mem_filter.2 ⟨Finset.mem_range.2 hlt, hnot⟩
      rw [Finset.card_eq_zero.1 (Nat.le_zero.1 henough)] at hmem
      cases hmem
  | succ n ih =>
      cases frontier with
      | nil => exact h
      | cons first rest =>
          have hround := h.round
          change g.Spreads (g.markKept n (markNew marks ((first :: rest).flatMap g.keeps)).1
            (markNew marks ((first :: rest).flatMap g.keeps)).2) []
          cases hfresh : (markNew marks ((first :: rest).flatMap g.keeps)).2 with
          | nil =>
              rw [markKept_nil]
              rwa [hfresh] at hround
          | cons r fresh =>
              have hr : r ∈ (markNew marks ((first :: rest).flatMap g.keeps)).2 := by
                rw [hfresh]
                exact List.mem_cons_self ..
              have hless := card_unmarked_lt hr
              rw [← hfresh]
              exact ih hround (by omega)

theorem has_of_keeps (h : g.Keeps r r') : g.Has r := by
  unfold Keeps keeps form? at h
  cases hnode : g.node? r with
  | none => simp [hnode] at h
  | some node => exact ⟨node, hnode⟩

theorem has_of_keeps_reaches (hpath : Relation.ReflTransGen g.Keeps r r') (hr' : g.Has r') :
    g.Has r := by
  rcases hpath.cases_head with rfl | ⟨_, hkeeps, -⟩
  · exact hr'
  · exact has_of_keeps hkeeps

/-- **The search marks exactly what the rules keep.** -/
theorem marked_kept_iff :
    Marked (g.kept rules) r ↔ g.Has r ∧ ∃ r₀ ∈ rules, Relation.ReflTransGen g.Keeps r₀ r := by
  have hnone : ∀ {r}, ¬ Marked g.noMarks r := by
    intro r hr
    simp [Marked, noMarks, Array.getElem?_replicate] at hr
  have hsize : g.noMarks.size = g.nodes.size := Array.size_replicate
  have hhas : ∀ {r : Rule}, g.Has r ↔ r.node < g.nodes.size := by
    intro r
    rw [← has_iff, has, decide_eq_true_iff]
  have hspreads : g.Spreads (markNew g.noMarks rules).1 (markNew g.noMarks rules).2 := by
    refine ⟨(size_markNew _ _).trans hsize, fun hr _ _ => Or.inl ?_⟩
    obtain ⟨hmem, hlt⟩ := (marked_markNew.1 hr).resolve_left hnone
    exact mem_markNew hmem hlt hnone
  have hclosed : g.Spreads (g.kept rules) [] := by
    refine hspreads.closed ?_
    calc (unmarked (markNew g.noMarks rules).1).card
        ≤ (Finset.range (markNew g.noMarks rules).1.size).card := Finset.card_filter_le _ _
      _ = g.nodes.size := by rw [Finset.card_range, size_markNew, hsize]
  constructor
  · intro hr
    have hlt : r.node < (g.kept rules).size := (Array.getElem?_eq_some_iff.1 hr).1
    refine ⟨hhas.2 (hclosed.size ▸ hlt), ?_⟩
    have hstart : ∀ r' ∈ rules, ∃ r₀ ∈ rules, Relation.ReflTransGen g.Keeps r₀ r' :=
      fun r' hr' => ⟨r', hr', .refl⟩
    refine markKept_sound (P := fun r => ∃ r₀ ∈ rules, Relation.ReflTransGen g.Keeps r₀ r)
      ?_ _ (fun r' hr' => ?_) (fun r' hr' => ?_) hr
    · rintro r r' ⟨r₀, hr₀, hpath⟩ hkeeps
      exact ⟨r₀, hr₀, hpath.tail hkeeps⟩
    · exact hstart r' ((marked_markNew.1 hr').resolve_left hnone).1
    · exact hstart r' (of_mem_markNew hr').1
  · rintro ⟨hr, r₀, hr₀, hpath⟩
    induction hpath with
    | refl =>
        have hlt : r₀.node < g.noMarks.size := hsize ▸ hhas.1 hr
        exact marked_markKept_of_marked _ (marked_markNew.2 (Or.inr ⟨hr₀, hlt⟩))
    | tail _ hkeeps ih =>
        have hlt := hclosed.size ▸ hhas.1 hr
        exact (hclosed.next (ih (has_of_keeps hkeeps)) hkeeps hlt).resolve_left List.not_mem_nil

/-! ### Releasing -/

/-- A cell is kept: something that refers to it is kept by a root, or by a reference that keeps
itself. -/
def KeepsCell (g : Grammar τ α σ) (roots : List Rule) (cell : CellId) : Prop :=
  ∃ r₀ r info, (r₀ ∈ roots ∨ g.isStrongReference r₀ = true ∧
      Relation.TransGen g.Keeps r₀ r₀) ∧
    Relation.ReflTransGen g.Keeps r₀ r ∧ g.node? r = some ⟨info, .reference cell false⟩

/-- A rule is kept by a root, or by a reference that keeps itself. -/
def KeepsRule (g : Grammar τ α σ) (roots : List Rule) (r : Rule) : Prop :=
  ∃ r₀, (r₀ ∈ roots ∨ g.isStrongReference r₀ = true ∧ Relation.TransGen g.Keeps r₀ r₀) ∧
    Relation.ReflTransGen g.Keeps r₀ r

theorem KeepsRule.of_mem (h : r ∈ roots) : g.KeepsRule roots r := ⟨r, Or.inl h, .refl⟩

theorem KeepsRule.tail (h : g.KeepsRule roots r) (hkeeps : g.Keeps r r') :
    g.KeepsRule roots r' := by
  obtain ⟨r₀, hr₀, hpath⟩ := h
  exact ⟨r₀, hr₀, hpath.tail hkeeps⟩

theorem KeepsRule.trans (h : g.KeepsRule roots r) (hpath : Relation.ReflTransGen g.Keeps r r') :
    g.KeepsRule roots r' := by
  induction hpath with
  | refl => exact h
  | tail _ hkeeps ih => exact ih.tail hkeeps

/-- A cell is kept if a strong reference to it is. -/
theorem keepsCell_iff : g.KeepsCell roots cell ↔
    ∃ r info, g.KeepsRule roots r ∧ g.node? r = some ⟨info, .reference cell false⟩ := by
  constructor
  · rintro ⟨r₀, r, info, hr₀, hpath, hnode⟩
    exact ⟨r, info, ⟨r₀, hr₀, hpath⟩, hnode⟩
  · rintro ⟨r, info, ⟨r₀, hr₀, hpath⟩, hnode⟩
    exact ⟨r₀, r, info, hr₀, hpath, hnode⟩

theorem mem_rules : r ∈ g.rules ↔ g.Has r := by
  rw [rules, List.mem_map, ← has_iff, has, decide_eq_true_iff]
  constructor
  · rintro ⟨i, hi, rfl⟩
    exact List.mem_range.1 hi
  · exact fun hlt => ⟨r.node, List.mem_range.2 hlt, rfl⟩

theorem keepsItself_iff : g.keepsItself r = true ↔ Relation.TransGen g.Keeps r r := by
  rw [keepsItself, marked_iff_getD, marked_kept_iff, Relation.TransGen.head'_iff]
  constructor
  · exact fun h => h.2
  · rintro ⟨r', hkeeps, hpath⟩
    exact ⟨has_of_keeps hkeeps, r', hkeeps, hpath⟩

theorem mem_selfKeepers : r ∈ g.selfKeepers ↔
    g.isStrongReference r = true ∧ Relation.TransGen g.Keeps r r := by
  rw [selfKeepers, List.mem_filter, Bool.and_eq_true, keepsItself_iff, mem_rules]
  refine and_iff_right_of_imp fun h => ?_
  obtain ⟨r', hkeeps, -⟩ := Relation.TransGen.head'_iff.1 h.2
  exact has_of_keeps hkeeps

/-- A strong reference to a cell is a rule of this form. -/
theorem mem_keptCells {marks : Array Bool} : cell ∈ g.keptCells marks ↔
    ∃ r info, g.node? r = some ⟨info, .reference cell false⟩ ∧ Marked marks r := by
  rw [keptCells, List.mem_filterMap]
  constructor
  · rintro ⟨r, -, hr⟩
    split at hr
    · next cell' hform =>
      split at hr
      · next hmarked =>
        cases hr
        obtain ⟨⟨info, form⟩, hnode, rfl⟩ := Option.map_eq_some_iff.1 hform
        exact ⟨r, info, hnode, marked_iff_getD.1 hmarked⟩
      · cases hr
    · cases hr
  · rintro ⟨r, info, hnode, hmarked⟩
    refine ⟨r, mem_rules.2 ⟨_, hnode⟩, ?_⟩
    simp only [form?, hnode, Option.map_some]
    exact if_pos (marked_iff_getD.2 hmarked)

theorem mem_keptCells_kept :
    cell ∈ g.keptCells (g.kept (roots ++ g.selfKeepers)) ↔ g.KeepsCell roots cell := by
  simp only [mem_keptCells, marked_kept_iff, List.mem_append, mem_selfKeepers]
  constructor
  · rintro ⟨r, info, hnode, -, r₀, hr₀, hpath⟩
    exact ⟨r₀, r, info, hr₀, hpath, hnode⟩
  · rintro ⟨r₀, r, info, hr₀, hpath, hnode⟩
    exact ⟨r, info, hnode, ⟨_, hnode⟩, r₀, hr₀, hpath⟩

open Classical in
/-- **A recursive rule is released exactly if its cell is not kept.** All other cells stay. -/
theorem cells_release (g : Grammar τ α σ) (roots : List Rule) (cell : CellId) :
    (g.release roots).cells[cell]? = (g.cells[cell]?).map fun content =>
      match content with
      | .recursive body => if g.KeepsCell roots cell then .recursive body else .released
      | content => content := by
  unfold release
  split
  · rw [Array.getElem?_mapIdx]
    congr
    funext content
    cases content with
    | recursive body => simp only [List.contains_iff_mem, mem_keptCells_kept]
    | _ => rfl
  · next hnone =>
    cases hcell : g.cells[cell]? with
    | none => rfl
    | some content =>
        cases content with
        | recursive body =>
            refine absurd ?_ hnone
            rw [hasRecursive, Array.any_eq_true]
            obtain ⟨hlt, hget⟩ := Array.getElem?_eq_some_iff.1 hcell
            exact ⟨cell, hlt, by rw [hget]⟩
        | _ => rfl

/-- A cell stays as it is, or its recursive rule is released. -/
theorem cell_release (g : Grammar τ α σ) (roots : List Rule) (cell : CellId) :
    (g.release roots).cells[cell]? = g.cells[cell]? ∨
      (g.release roots).cells[cell]? = some .released ∧
        ∃ body, g.cells[cell]? = some (.recursive body) := by
  rw [cells_release]
  cases g.cells[cell]? with
  | none => exact Or.inl rfl
  | some content =>
      cases content with
      | recursive body =>
          dsimp only [Option.map_some]
          split
          · exact Or.inl rfl
          · exact Or.inr ⟨rfl, body, rfl⟩
      | _ => exact Or.inl rfl

@[simp] theorem size_cells_release (g : Grammar τ α σ) (roots : List Rule) :
    (g.release roots).cells.size = g.cells.size := by
  unfold release
  split
  · exact Array.size_mapIdx
  · rfl

@[simp] theorem release_nodes (g : Grammar τ α σ) (roots : List Rule) :
    (g.release roots).nodes = g.nodes := by
  unfold release
  split <;> rfl

@[simp] theorem release_nextId (g : Grammar τ α σ) (roots : List Rule) :
    (g.release roots).nextId = g.nextId := by
  unfold release
  split <;> rfl

/-! ### What is lost -/

/-- A recursive rule is lost when only the given rules are held. -/
def Loses (g : Grammar τ α σ) (held : List Rule) (cell : CellId) : Prop :=
  (∃ body, g.cells[cell]? = some (.recursive body)) ∧ ¬ g.KeepsCell held cell

/-- What is lost is released, and whatever is not lost stays. -/
theorem cells_release_of_loses (h : g.Loses roots cell) :
    (g.release roots).cells[cell]? = some .released := by
  obtain ⟨⟨body, hcell⟩, hkept⟩ := h
  simp [cells_release, hcell, hkept]

theorem cells_release_of_not_loses (h : ¬ g.Loses roots cell) :
    (g.release roots).cells[cell]? = g.cells[cell]? := by
  rcases g.cell_release roots cell with hsame | ⟨hreleased, body, hbody⟩
  · exact hsame
  · rw [cells_release, hbody, Option.map_some] at hreleased
    refine absurd ⟨⟨body, hbody⟩, fun hkept => ?_⟩ h
    simp [hkept] at hreleased

/-- Where nothing is lost, nothing is released. -/
theorem release_eq_self (h : ∀ cell, ¬ g.Loses roots cell) : g.release roots = g := by
  have hcells : (g.release roots).cells = g.cells :=
    Array.ext_getElem? fun cell => cells_release_of_not_loses (h cell)
  have hnodes := g.release_nodes roots
  have hnextId := g.release_nextId roots
  obtain ⟨nodes, cells, nextId⟩ := g
  exact congr (congr (congrArg Grammar.mk hnodes) hcells) hnextId

/-- Nothing can be released where there is no recursive rule. -/
theorem release_of_no_recursive
    (h : ∀ (cell : CellId) body, g.cells[cell]? ≠ some (.recursive body)) (roots : List Rule) :
    g.release roots = g :=
  release_eq_self fun cell hlost => hlost.1.elim (h cell)

/-- A grammar from which nothing is released has lost nothing. -/
theorem not_loses_of_release_eq (h : g.release roots = g) (cell : CellId) :
    ¬ g.Loses roots cell := by
  intro hlost
  obtain ⟨body, hbody⟩ := hlost.1
  have hreleased := cells_release_of_loses hlost
  rw [h, hbody] at hreleased
  cases hreleased

end Grammar

end LazyGrammar

import Mathlib.Logic.Relation
import LazyGrammar.Rule.Analysis

/-!
# LazyGrammar.Proofs.Analysis.Shapes

**What shapes say**: which rules can match nothing, and which rules may be entered at the
position where another one is, given no more than the shapes of rules.

Design points:

* A collection of `Shapes` may come from the table of a survey or from the grammar itself,
  and it may or may not count the end of the input as nothing.
* `Nullable` is the least fixed point as a derivation. `NullableIn` bounds the height of
  derivations: the children of a rule of height `n + 1` have height `n`.
-/

namespace LazyGrammar

/-- A shape is nullable if the rules are for which `known` holds. -/
def Shape.NullableIf (known : RuleId → Prop) : Shape → Prop
  | .leaf nullable => nullable = true
  | .choice children => ∃ child ∈ children, known child
  | .chain children => ∀ child ∈ children, known child

/-- The rules that a shape is made of. -/
def Shape.children : Shape → List RuleId
  | .leaf _ => []
  | .choice children | .chain children => children

theorem Shape.NullableIf.mono {known known' : RuleId → Prop} {shape : Shape}
    (hle : ∀ child ∈ shape.children, known child → known' child)
    (h : shape.NullableIf known) : shape.NullableIf known' := by
  cases shape with
  | leaf nullable => exact h
  | choice children =>
      obtain ⟨child, hchild, hknown⟩ := h
      exact ⟨child, hchild, hle child hchild hknown⟩
  | chain children => exact fun child hchild => hle child hchild (h child hchild)

/-- Which shapes rules have. -/
abbrev Shapes := RuleId → Shape → Prop

namespace Shapes

/-- A rule can match nothing. -/
inductive Nullable (shapes : Shapes) : RuleId → Prop
  | leaf {id : RuleId} (h : shapes id (.leaf true)) : Nullable shapes id
  | choice {id child : RuleId} {children : List RuleId} (h : shapes id (.choice children))
      (hchild : child ∈ children) (hnullable : Nullable shapes child) : Nullable shapes id
  | chain {id : RuleId} {children : List RuleId} (h : shapes id (.chain children))
      (hall : ∀ child ∈ children, Nullable shapes child) : Nullable shapes id

/-- A rule can match nothing, by a derivation of at most the given height. -/
def NullableIn (shapes : Shapes) : Nat → RuleId → Prop
  | 0, _ => False
  | n + 1, id => ∃ shape, shapes id shape ∧ shape.NullableIf (NullableIn shapes n)

/-- One rule may be entered at the position where another one is. -/
inductive Leftmost (shapes : Shapes) : RuleId → RuleId → Prop
  | choice {id child : RuleId} {children : List RuleId} (h : shapes id (.choice children))
      (hchild : child ∈ children) : Leftmost shapes id child
  | chain {id child : RuleId} {before after : List RuleId}
      (h : shapes id (.chain (before ++ child :: after)))
      (hbefore : ∀ other ∈ before, Nullable shapes other) : Leftmost shapes id child

/-- A rule may be entered again at the position where it is. -/
def Circular (shapes : Shapes) (id : RuleId) : Prop :=
  Relation.TransGen shapes.Leftmost id id

variable {shapes shapes' : Shapes} {id child : RuleId}

theorem Nullable.of_shape {shape : Shape} (h : shapes id shape)
    (hshape : shape.NullableIf shapes.Nullable) : shapes.Nullable id := by
  cases shape with
  | leaf nullable =>
      cases hshape
      exact .leaf h
  | choice children =>
      obtain ⟨child, hchild, hnullable⟩ := hshape
      exact .choice h hchild hnullable
  | chain children => exact .chain h hshape

theorem Leftmost.first {rest : List RuleId} (h : shapes id (.chain (child :: rest))) :
    shapes.Leftmost id child :=
  @Leftmost.chain shapes id child [] rest h nofun

theorem Leftmost.mem_children (h : shapes.Leftmost id child) :
    ∃ shape, shapes id shape ∧ child ∈ shape.children := by
  cases h with
  | choice h hchild => exact ⟨_, h, hchild⟩
  | chain h _ => exact ⟨_, h, List.mem_append_right _ (List.mem_cons_self ..)⟩

/-- There is no circle if every leftmost step goes down. -/
theorem not_circular_of_rank (rank : RuleId → Nat)
    (hdown : ∀ id child, shapes.Leftmost id child → rank child < rank id) (id : RuleId) :
    ¬ shapes.Circular id := by
  have hless : ∀ {first last}, Relation.TransGen shapes.Leftmost first last →
      rank last < rank first := by
    intro first last h
    induction h with
    | single h => exact hdown _ _ h
    | tail _ h ih => exact Nat.lt_trans (hdown _ _ h) ih
  exact fun h => Nat.lt_irrefl _ (hless h)

/-! ### Fewer shapes -/

theorem Nullable.mono (hle : ∀ id shape, shapes id shape → shapes' id shape)
    (h : shapes.Nullable id) : shapes'.Nullable id := by
  induction h with
  | leaf h => exact .leaf (hle _ _ h)
  | choice h hchild _ ih => exact .choice (hle _ _ h) hchild ih
  | chain h _ ih => exact .chain (hle _ _ h) ih

theorem Leftmost.mono (hle : ∀ id shape, shapes id shape → shapes' id shape)
    (h : shapes.Leftmost id child) : shapes'.Leftmost id child := by
  cases h with
  | choice h hchild => exact .choice (hle _ _ h) hchild
  | chain h hbefore => exact .chain (hle _ _ h) fun other hother => (hbefore other hother).mono hle

theorem Circular.mono (hle : ∀ id shape, shapes id shape → shapes' id shape)
    (h : shapes.Circular id) : shapes'.Circular id :=
  Relation.TransGen.mono (fun _ _ hleftmost => Leftmost.mono hle hleftmost) id id h

/-! ### Heights -/

theorem NullableIn.succ {n : Nat} (h : shapes.NullableIn n id) : shapes.NullableIn (n + 1) id := by
  induction n generalizing id with
  | zero => exact h.elim
  | succ n ih =>
      obtain ⟨shape, hshape, hnullable⟩ := h
      exact ⟨shape, hshape, hnullable.mono fun child _ => ih⟩

theorem NullableIn.of_le {m n : Nat} (hle : m ≤ n) (h : shapes.NullableIn m id) :
    shapes.NullableIn n id := by
  induction hle with
  | refl => exact h
  | step _ ih => exact ih.succ

/-- Finitely many derivations have a common bound. -/
theorem exists_nullableIn_all {children : List RuleId}
    (h : ∀ child ∈ children, ∃ n, shapes.NullableIn n child) :
    ∃ n, ∀ child ∈ children, shapes.NullableIn n child := by
  induction children with
  | nil => exact ⟨0, nofun⟩
  | cons first rest ih =>
      obtain ⟨m, hm⟩ := h first (List.mem_cons_self ..)
      obtain ⟨n, hn⟩ := ih fun child hchild => h child (List.mem_cons_of_mem _ hchild)
      refine ⟨max m n, ?_⟩
      intro child hchild
      rcases List.mem_cons.1 hchild with rfl | hrest
      · exact hm.of_le (Nat.le_max_left m n)
      · exact (hn child hrest).of_le (Nat.le_max_right m n)

/-- A rule that can match nothing has a derivation of some height. -/
theorem Nullable.exists_nullableIn (h : shapes.Nullable id) : ∃ n, shapes.NullableIn n id := by
  induction h with
  | leaf h => exact ⟨1, _, h, rfl⟩
  | choice h hchild _ ih =>
      obtain ⟨n, hn⟩ := ih
      exact ⟨n + 1, _, h, _, hchild, hn⟩
  | chain h _ ih =>
      obtain ⟨n, hn⟩ := exists_nullableIn_all ih
      exact ⟨n + 1, _, h, hn⟩

theorem NullableIn.nullable {n : Nat} (h : shapes.NullableIn n id) : shapes.Nullable id := by
  induction n generalizing id with
  | zero => exact h.elim
  | succ n ih =>
      obtain ⟨shape, hshape, hnullable⟩ := h
      exact .of_shape hshape (hnullable.mono fun child _ => ih)

theorem nullable_iff : shapes.Nullable id ↔ ∃ n, shapes.NullableIn n id :=
  ⟨Nullable.exists_nullableIn, fun ⟨_, h⟩ => h.nullable⟩

end Shapes

end LazyGrammar

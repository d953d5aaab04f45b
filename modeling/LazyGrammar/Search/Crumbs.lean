import LazyGrammar.Rule.Info

/-!
# LazyGrammar.Search.Crumbs

**The trail of a call**: which rules were entered on the way to it, and where. A rule
that is entered again at a position where the trail already has it can only go round
in circles, so the trail is what stops left recursion.

Positions never decrease along a trail, so the search for an entry gives up at the
first one with a smaller position (`Crumbs.holds`). `Crumbs.entries` is the plain
view: all entries, the latest first.
-/

namespace LazyGrammar

/-- The rules entered on the way to a call, the latest outermost. -/
inductive Crumbs
  | root
  /-- After `before`, a rule was entered at a position, as the `depth`-th one. -/
  | entered (rule : RuleId) (position depth : Nat) (before : Crumbs)
  deriving DecidableEq, Repr, Inhabited

namespace Crumbs

/-- The number of rules on the trail. -/
def depth : Crumbs → Nat
  | .root => 0
  | .entered _ _ depth _ => depth

/-- The trail after entering one more rule. -/
def enter (c : Crumbs) (rule : RuleId) (position : Nat) : Crumbs :=
  .entered rule position (c.depth + 1) c

/-- Whether a rule is on the trail with exactly this position. The search ends at
the first entry with a smaller position. -/
def holds (rule : RuleId) (position : Nat) : Crumbs → Bool
  | .root => false
  | .entered r p _ before =>
    if p < position then false
    else if r = rule ∧ p = position then true
    else before.holds rule position

/-- The entries of a trail, the latest first. -/
def entries : Crumbs → List (RuleId × Nat)
  | .root => []
  | .entered r p _ before => (r, p) :: before.entries

@[simp] theorem depth_enter (c : Crumbs) (rule : RuleId) (position : Nat) :
    (c.enter rule position).depth = c.depth + 1 := rfl

@[simp] theorem entries_enter (c : Crumbs) (rule : RuleId) (position : Nat) :
    (c.enter rule position).entries = (rule, position) :: c.entries := rfl

end Crumbs

end LazyGrammar

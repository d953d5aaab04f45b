import LazyGrammar.Position

/-!
# LazyGrammar.Value

The **values** that tokens are and that rules produce when a grammar is described
as data: one type serves as token and as result, so every rule can follow every
other.

Equality is structural (`Value.same_iff`), and `Value.render` is the one way in
which a value is written as text.
-/

namespace LazyGrammar

/-- A token, or what a rule makes of tokens. -/
inductive Value
  | unit
  | int (n : Int)
  | str (s : String)
  | list (items : List Value)
  | absent
  | present (v : Value)
  | left (v : Value)
  | right (v : Value)
  /-- A named construction. -/
  | node (name : String) (args : List Value)
  /-- A piece of text with the kind of token it is. -/
  | token (kind text : String)
  /-- A value with the positions of its text. -/
  | placed (start : Position) (value : Value) (stop : Position)
  deriving Inhabited, Repr

namespace Value

/-! ### Equality -/

mutual

/-- Structural equality. -/
def same : Value → Value → Bool
  | .unit, .unit => true
  | .int m, .int n => m == n
  | .str s, .str t => s == t
  | .list xs, .list ys => sameAll xs ys
  | .absent, .absent => true
  | .present v, .present w => same v w
  | .left v, .left w => same v w
  | .right v, .right w => same v w
  | .node f xs, .node g ys => f == g && sameAll xs ys
  | .token k s, .token l t => k == l && s == t
  | .placed a v b, .placed c w d => a == c && same v w && b == d
  | _, _ => false

/-- Structural equality of lists. -/
def sameAll : List Value → List Value → Bool
  | [], [] => true
  | v :: vs, w :: ws => same v w && sameAll vs ws
  | _, _ => false

end

mutual

theorem eq_of_same : ∀ {v w : Value}, same v w = true → v = w
  | .unit, w, h => by cases w <;> simp_all [same]
  | .int _, w, h => by cases w <;> simp_all [same]
  | .str _, w, h => by cases w <;> simp_all [same]
  | .list xs, w, h => by
      cases w <;> simp_all [same]
      exact eq_of_sameAll h
  | .absent, w, h => by cases w <;> simp_all [same]
  | .present v, w, h => by
      cases w <;> simp_all [same]
      exact eq_of_same h
  | .left v, w, h => by
      cases w <;> simp_all [same]
      exact eq_of_same h
  | .right v, w, h => by
      cases w <;> simp_all [same]
      exact eq_of_same h
  | .node f xs, w, h => by
      cases w <;> simp_all [same]
      exact eq_of_sameAll h.2
  | .token _ _, w, h => by cases w <;> simp_all [same]
  | .placed a v b, w, h => by
      cases w <;> simp_all [same]
      exact eq_of_same h.1.2

theorem eq_of_sameAll : ∀ {vs ws : List Value}, sameAll vs ws = true → vs = ws
  | [], [], _ => rfl
  | [], _ :: _, h => by simp [sameAll] at h
  | _ :: _, [], h => by simp [sameAll] at h
  | v :: vs, w :: ws, h => by
      simp only [sameAll, Bool.and_eq_true] at h
      rw [eq_of_same h.1, eq_of_sameAll h.2]

end

mutual

@[simp] theorem same_refl : ∀ v : Value, same v v = true
  | .unit | .int _ | .str _ | .absent | .token _ _ => by simp [same]
  | .list xs => by simp [same, sameAll_refl xs]
  | .present v | .left v | .right v => by simp [same, same_refl v]
  | .node _ xs => by simp [same, sameAll_refl xs]
  | .placed _ v _ => by simp [same, same_refl v]

@[simp] theorem sameAll_refl : ∀ vs : List Value, sameAll vs vs = true
  | [] => rfl
  | v :: vs => by simp [sameAll, same_refl v, sameAll_refl vs]

end

theorem same_iff {v w : Value} : same v w = true ↔ v = w :=
  ⟨eq_of_same, fun h => h ▸ same_refl v⟩

instance : DecidableEq Value := fun v w =>
  if h : same v w = true then isTrue (eq_of_same h)
  else isFalse fun e => h (same_iff.2 e)

/-! ### Text -/

mutual

/-- The text of a value. Positions are not shown. -/
def render : Value → String
  | .unit => "()"
  | .int n => toString n
  | .str s => s
  | .list items => "[" ++ renderAll items ++ "]"
  | .absent => "None"
  | .present v => "Some(" ++ render v ++ ")"
  | .left v => "Left(" ++ render v ++ ")"
  | .right v => "Right(" ++ render v ++ ")"
  | .node name args => name ++ "(" ++ renderAll args ++ ")"
  | .token kind text => kind ++ "(" ++ text ++ ")"
  | .placed _ v _ => render v

/-- The texts of values, separated by a comma and a blank. -/
def renderAll : List Value → String
  | [] => ""
  | [v] => render v
  | v :: vs => render v ++ ", " ++ renderAll vs

end

/-- The value inside any positions around it. -/
def bare : Value → Value
  | .placed _ v _ => bare v
  | v => v

mutual

/-- The sum of all integers in a value. Tokens and positioned values count as nothing. -/
def total : Value → Int
  | .int n => n
  | .list items => totalAll items
  | .present v => total v
  | .left v => total v
  | .right v => total v
  | .node _ args => totalAll args
  | _ => 0

/-- The sum of all integers in a list of values. -/
def totalAll : List Value → Int
  | [] => 0
  | v :: vs => total v + totalAll vs

end

end Value

end LazyGrammar

import LazyGrammar.Proofs.Rule.Reach

/-!
# LazyGrammar.Proofs.Derivation.Tree

**Derivation trees**: how a rule matches a part of the input, without any search. A tree
says which rule is used where, which alternative is taken, and how the parts match;
`Derives` says what tree a grammar allows, how far it gets and what its value is.

Design points:

* A node carries the identity of its rule, which several rules of a grammar may share. The
  rule itself, and so the kind of the node, is known from where the node stands.
* A tree is **acyclic** if no path down from its root has one identity at one position
  twice. Only such trees can be found by a search that does not go round in circles.
* Trees of one rule at one position are ordered by what a search tries first: by
  alternative, then by the first part that differs, a run of items before the runs that
  go on from it.
-/

namespace LazyGrammar

variable {τ α σ : Type}

/-! ### Trees -/

/-- A derivation tree. A choice other than `0` is the index of an alternative. -/
inductive Tree
  | node (id : RuleId) (start choice : Nat) (parts : List Tree)
  deriving Repr, Inhabited

namespace Tree

mutual
/-- The ways down from the root to any node: identities and positions. -/
def paths : Tree → List (List (RuleId × Nat))
  | .node id start _ parts => [(id, start)] :: (pathsAll parts).map ((id, start) :: ·)
/-- The ways down through any of the trees. -/
def pathsAll : List Tree → List (List (RuleId × Nat))
  | [] => []
  | t :: ts => paths t ++ pathsAll ts
end

/-- No way down from the root has an identity at one position twice. -/
def Acyclic (t : Tree) : Prop := ∀ path ∈ t.paths, path.Nodup

instance (t : Tree) : Decidable t.Acyclic :=
  inferInstanceAs (Decidable (∀ path ∈ t.paths, path.Nodup))

mutual
/-- A tree comes before another one, for the same rule at the same position. -/
def Before : Tree → Tree → Prop
  | .node _ _ choice parts, .node _ _ choice' parts' =>
    choice < choice' ∨ choice = choice' ∧ BeforeAll parts parts'
/-- A list of trees comes before another one: it is shorter, or smaller where the two first
differ. -/
def BeforeAll : List Tree → List Tree → Prop
  | [], [] => False
  | [], _ :: _ => True
  | _ :: _, [] => False
  | t :: ts, t' :: ts' => Before t t' ∨ t = t' ∧ BeforeAll ts ts'
end

mutual
theorem not_before_self : ∀ t : Tree, ¬ Before t t
  | .node _ _ choice parts => by
      unfold Before
      intro hbefore
      rcases hbefore with hlt | ⟨-, hparts⟩
      · exact Nat.lt_irrefl choice hlt
      · exact not_beforeAll_self parts hparts
theorem not_beforeAll_self : ∀ ts : List Tree, ¬ BeforeAll ts ts
  | [] => by
      unfold BeforeAll
      exact id
  | t :: ts => by
      unfold BeforeAll
      intro hbefore
      rcases hbefore with hfirst | ⟨-, hrest⟩
      · exact not_before_self t hfirst
      · exact not_beforeAll_self ts hrest
end

/-! ### Trees below a path -/

/-- A tree that stays acyclic below a path that leads to it. -/
def Fresh (path : List (RuleId × Nat)) (t : Tree) : Prop :=
  ∀ down ∈ t.paths, down.Nodup ∧ ∀ entry ∈ down, entry ∉ path

theorem fresh_nil {t : Tree} : t.Fresh [] ↔ t.Acyclic := by
  constructor
  · exact fun h down hdown => (h down hdown).1
  · exact fun h down hdown => ⟨h down hdown, fun _ _ => List.not_mem_nil⟩

theorem mem_pathsAll {ts : List Tree} {down : List (RuleId × Nat)} :
    down ∈ pathsAll ts ↔ ∃ t ∈ ts, down ∈ t.paths := by
  induction ts with
  | nil => simp [pathsAll]
  | cons t ts ih => simp [pathsAll, ih]

/-- A node is new on the path to it, and it stands on the path to its parts. -/
theorem fresh_node {path : List (RuleId × Nat)} {id : RuleId} {start choice : Nat}
    {parts : List Tree} :
    (node id start choice parts).Fresh path ↔
      (id, start) ∉ path ∧ ∀ t ∈ parts, t.Fresh ((id, start) :: path) := by
  constructor
  · intro h
    refine ⟨(h [(id, start)] ?_).2 _ (List.mem_singleton_self _), ?_⟩
    · unfold paths
      exact List.mem_cons_self ..
    · intro t ht down hdown
      -- the way through the node is one entry longer, and has none twice
      have hlonger : (id, start) :: down ∈ (node id start choice parts).paths := by
        unfold paths
        exact List.mem_cons_of_mem _ (List.mem_map_of_mem (mem_pathsAll.2 ⟨t, ht, hdown⟩))
      obtain ⟨hnodup, hnew⟩ := h _ hlonger
      obtain ⟨hnot, hnodup⟩ := List.nodup_cons.1 hnodup
      refine ⟨hnodup, fun entry hentry hmem => ?_⟩
      rcases List.mem_cons.1 hmem with rfl | hmem
      · exact hnot hentry
      · exact hnew entry (List.mem_cons_of_mem _ hentry) hmem
  · intro hnew down hdown
    obtain ⟨hnot, hparts⟩ := hnew
    unfold paths at hdown
    rcases List.mem_cons.1 hdown with rfl | hdown
    · refine ⟨List.nodup_singleton _, fun entry hentry => ?_⟩
      cases List.mem_singleton.1 hentry
      exact hnot
    · obtain ⟨rest, hrest, rfl⟩ := List.mem_map.1 hdown
      obtain ⟨t, ht, hrest⟩ := mem_pathsAll.1 hrest
      obtain ⟨hnodup, hnew⟩ := hparts t ht rest hrest
      refine ⟨List.nodup_cons.2 ⟨fun hmem => ?_, hnodup⟩, fun entry hentry hmem => ?_⟩
      · exact hnew _ hmem (List.mem_cons_self ..)
      · rcases List.mem_cons.1 hentry with rfl | hentry
        · exact hnot hmem
        · exact hnew entry hentry (List.mem_cons_of_mem _ hmem)

end Tree

/-! ### Derivations -/

mutual
/-- `Derives g tokens r i t j v`: the tree `t` shows how the rule `r` matches the tokens from
index `i` up to `j`, with the value `v`. -/
inductive Derives (g : Grammar τ α σ) (tokens : List τ) : Rule → Nat → Tree → Nat → α → Prop
  | terminal {r : Rule} {info : RuleInfo} {accept : τ → Except Fault (Option α)} {i : Nat} {t : τ}
      {v : α}
      (hnode : g.node? r = some ⟨info, .terminal accept⟩) (htoken : tokens[i]? = some t)
      (hvalue : accept t = .ok (some v)) : Derives g tokens r i (.node info.id i 0 []) (i + 1) v
  | epsilon {r : Rule} {info : RuleInfo} {v : α} {i : Nat}
      (hnode : g.node? r = some ⟨info, .epsilon v⟩) :
      Derives g tokens r i (.node info.id i 0 []) i v
  | endOfInput {r : Rule} {info : RuleInfo} {v : α} {i : Nat}
      (hnode : g.node? r = some ⟨info, .endOfInput v⟩) (hend : tokens[i]? = none) :
      Derives g tokens r i (.node info.id i 0 []) i v
  | map {r inner : Rule} {info : RuleInfo} {f : α → Except Fault α} {i j : Nat} {t : Tree}
      {v w : α} (hnode : g.node? r = some ⟨info, .map inner f⟩)
      (hinner : Derives g tokens inner i t j v) (hvalue : f v = .ok w) :
      Derives g tokens r i (.node info.id i 0 [t]) j w
  | repetition {r item : Rule} {info : RuleInfo} {collect : List α → α} {i j : Nat}
      {ts : List Tree} {vs : List α} (hnode : g.node? r = some ⟨info, .repetition item collect⟩)
      (hitems : DerivesRun g tokens item i ts j vs) :
      Derives g tokens r i (.node info.id i 0 ts) j (collect vs)
  | reference {r r' : Rule} {info : RuleInfo} {cell : CellId} {weak : Bool} {i j : Nat}
      {t : Tree} {v : α} (hnode : g.node? r = some ⟨info, .reference cell weak⟩)
      (htarget : g.target cell = .rule r') (hinner : Derives g tokens r' i t j v) :
      Derives g tokens r i (.node info.id i 0 [t]) j v
  | oneOf {r r' first : Rule} {others : List Rule} {info : RuleInfo} {i j k : Nat} {t : Tree}
      {v : α} (hnode : g.node? r = some ⟨info, .oneOf first others⟩)
      (hchoice : (first :: others)[k]? = some r') (hinner : Derives g tokens r' i t j v) :
      Derives g tokens r i (.node info.id i k [t]) j v
  | sequence {r first : Rule} {others : List Rule} {build : List α → Except Fault α}
      {info : RuleInfo} {i j : Nat} {ts : List Tree} {vs : List α} {v : α}
      (hnode : g.node? r = some ⟨info, .sequence first others build⟩)
      (hparts : DerivesAll g tokens (first :: others) i ts j vs) (hvalue : build vs = .ok v) :
      Derives g tokens r i (.node info.id i 0 ts) j v
/-- The trees show how the rules match one after another. -/
inductive DerivesAll (g : Grammar τ α σ) (tokens : List τ) :
    List Rule → Nat → List Tree → Nat → List α → Prop
  | nil {i : Nat} : DerivesAll g tokens [] i [] i []
  | cons {r : Rule} {rs : List Rule} {i j k : Nat} {t : Tree} {ts : List Tree} {v : α}
      {vs : List α} (hfirst : Derives g tokens r i t j v)
      (hrest : DerivesAll g tokens rs j ts k vs) :
      DerivesAll g tokens (r :: rs) i (t :: ts) k (v :: vs)
/-- The trees show how one item or more match, each with at least one token. -/
inductive DerivesRun (g : Grammar τ α σ) (tokens : List τ) :
    Rule → Nat → List Tree → Nat → List α → Prop
  | last {r : Rule} {i j : Nat} {t : Tree} {v : α} (hitem : Derives g tokens r i t j v)
      (hlt : i < j) : DerivesRun g tokens r i [t] j [v]
  | more {r : Rule} {i j k : Nat} {t : Tree} {ts : List Tree} {v : α} {vs : List α}
      (hitem : Derives g tokens r i t j v) (hlt : i < j)
      (hrest : DerivesRun g tokens r j ts k vs) :
      DerivesRun g tokens r i (t :: ts) k (v :: vs)
end

/-- What the choice and the parts of a node for a form have to be. -/
def Form.Parts (g : Grammar τ α σ) (tokens : List τ) (i : Nat) :
    Form τ α → Nat → List Tree → Nat → α → Prop
  | .terminal accept, k, ts, j, v =>
    k = 0 ∧ ts = [] ∧ j = i + 1 ∧ ∃ t, tokens[i]? = some t ∧ accept t = .ok (some v)
  | .epsilon value, k, ts, j, v => k = 0 ∧ ts = [] ∧ j = i ∧ v = value
  | .endOfInput value, k, ts, j, v => k = 0 ∧ ts = [] ∧ j = i ∧ tokens[i]? = none ∧ v = value
  | .map inner f, k, ts, j, w =>
    k = 0 ∧ ∃ t v, ts = [t] ∧ Derives g tokens inner i t j v ∧ f v = .ok w
  | .repetition item collect, k, ts, j, v =>
    k = 0 ∧ ∃ vs, DerivesRun g tokens item i ts j vs ∧ v = collect vs
  | .reference cell _, k, ts, j, v =>
    k = 0 ∧ ∃ r t, g.target cell = .rule r ∧ ts = [t] ∧ Derives g tokens r i t j v
  | .oneOf first others, k, ts, j, v =>
    ∃ r t, (first :: others)[k]? = some r ∧ ts = [t] ∧ Derives g tokens r i t j v
  | .sequence first others build, k, ts, j, v =>
    k = 0 ∧ ∃ vs, DerivesAll g tokens (first :: others) i ts j vs ∧ build vs = .ok v

/-- A tree of a rule is a node of the rule's form. -/
theorem derives_iff {g : Grammar τ α σ} {tokens : List τ} {r : Rule} {info : RuleInfo}
    {form : Form τ α} (hnode : g.node? r = some ⟨info, form⟩) {i j : Nat} {t : Tree} {v : α} :
    Derives g tokens r i t j v ↔
      ∃ k ts, t = .node info.id i k ts ∧ form.Parts g tokens i k ts j v := by
  constructor
  · intro h
    cases h with
    | terminal hnode' htoken hvalue =>
        cases hnode.symm.trans hnode'
        exact ⟨0, [], rfl, rfl, rfl, rfl, _, htoken, hvalue⟩
    | epsilon hnode' =>
        cases hnode.symm.trans hnode'
        exact ⟨0, [], rfl, rfl, rfl, rfl, rfl⟩
    | endOfInput hnode' hend =>
        cases hnode.symm.trans hnode'
        exact ⟨0, [], rfl, rfl, rfl, rfl, hend, rfl⟩
    | map hnode' hinner hvalue =>
        cases hnode.symm.trans hnode'
        exact ⟨0, _, rfl, rfl, _, _, rfl, hinner, hvalue⟩
    | repetition hnode' hitems =>
        cases hnode.symm.trans hnode'
        exact ⟨0, _, rfl, rfl, _, hitems, rfl⟩
    | reference hnode' htarget hinner =>
        cases hnode.symm.trans hnode'
        exact ⟨0, _, rfl, rfl, _, _, htarget, rfl, hinner⟩
    | oneOf hnode' hchoice hinner =>
        cases hnode.symm.trans hnode'
        exact ⟨_, _, rfl, _, _, hchoice, rfl, hinner⟩
    | sequence hnode' hparts hvalue =>
        cases hnode.symm.trans hnode'
        exact ⟨0, _, rfl, rfl, _, hparts, hvalue⟩
  · intro hnode'
    obtain ⟨k, ts, rfl, h⟩ := hnode'
    cases form with
    | terminal accept =>
        obtain ⟨rfl, rfl, rfl, t, htoken, hvalue⟩ := h
        exact .terminal hnode htoken hvalue
    | epsilon value =>
        obtain ⟨rfl, rfl, rfl, rfl⟩ := h
        exact .epsilon hnode
    | endOfInput value =>
        obtain ⟨rfl, rfl, rfl, hend, rfl⟩ := h
        exact .endOfInput hnode hend
    | map inner f =>
        obtain ⟨rfl, t, w, rfl, hinner, hvalue⟩ := h
        exact .map hnode hinner hvalue
    | repetition item collect =>
        obtain ⟨rfl, vs, hitems, rfl⟩ := h
        exact .repetition hnode hitems
    | reference cell weak =>
        obtain ⟨rfl, r', t, htarget, rfl, hinner⟩ := h
        exact .reference hnode htarget hinner
    | oneOf first others =>
        obtain ⟨r', t, hchoice, rfl, hinner⟩ := h
        exact .oneOf hnode hchoice hinner
    | sequence first others build =>
        obtain ⟨rfl, vs, hparts, hvalue⟩ := h
        exact .sequence hnode hparts hvalue

end LazyGrammar

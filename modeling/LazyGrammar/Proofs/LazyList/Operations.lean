import LazyGrammar.Proofs.LazyList.Progress

/-!
# LazyGrammar.Proofs.LazyList.Operations

**Mapping, joining and flattening**: what they do at once, what their lists consist of,
and what is demanded when somebody walks along these.

Design points:

* Each operation does something at once, and the same again to every tail of its source
  when the tail of its own list is asked for. So what it does at once is stated as a
  relation (`Memory.Maps`, `Memory.Joins`, `Memory.Flattens`), and the demand of a walk
  refers to the operation itself.
-/

namespace LazyGrammar.LazyList

variable {α : Type}

namespace Memory

/-- What mapping a function over a list does at once: it applies the function to the first
element. -/
def Maps (m : Memory α) (f : α → Program α .element) :
    LazyList → LazyList → Memory α → Prop
  | .nil, list, m' => list = .nil ∧ m' = m
  | .link a, list, m' => ∃ x y m₁, m.head? a = some x ∧ Evaluates m (f x) y m₁
      ∧ list = .link m₁.fresh ∧ m' = m₁.add y (.pending (.code (.mapTail f a)))

/-- What joining a second list to a list does at once: it runs the supplier of the second
list if the first one is empty, and gives its list. -/
def Joins (m : Memory α) (that : Program α .list) : LazyList → LazyList → Memory α → Prop
  | .nil, list, m' => Evaluates m that list m'
  | .link a, list, m' => ∃ x, m.head? a = some x ∧ list = .link m.fresh
      ∧ m' = m.add x (.pending (.code (.concatTail that a)))

/-- What flattening a list does at once: it applies the function to the first element,
and joins what comes of the others to the list that it gives. -/
def Flattens (m : Memory α) (f : α → Program α .list) :
    LazyList → LazyList → Memory α → Prop
  | .nil, list, m' => list = .nil ∧ m' = m
  | .link a, list, m' => ∃ x inner m₁, m.head? a = some x ∧ Evaluates m (f x) inner m₁
      ∧ m₁.Joins (.flatTail f a) inner list m'

end Memory

section AtOnce

variable {m m' : Memory α} {source list : LazyList}

theorem evaluates_map_iff {f : α → Program α .element} :
    Evaluates m (.map f source .give) list m' ↔ m.Maps f source list m' := by
  cases source with
  | nil => exact evaluates_map_nil.trans evaluates_done
  | link a =>
    constructor
    · intro h
      obtain ⟨x, y, m₁, hx, hf, hdone⟩ := evaluates_map_link.1 h
      exact ⟨x, y, m₁, hx, hf, evaluates_done.1 hdone⟩
    · rintro ⟨x, y, m₁, hx, hf, hdone⟩
      exact evaluates_map_link.2 ⟨x, y, m₁, hx, hf, evaluates_done.2 hdone⟩

theorem evaluates_concat_iff {that : Program α .list} :
    Evaluates m (.concat source that .give) list m' ↔ m.Joins that source list m' := by
  cases source with
  | nil =>
    constructor
    · intro h
      obtain ⟨list', m₁, hthat, hdone⟩ := evaluates_concat_nil.1 h
      obtain ⟨rfl, rfl⟩ := evaluates_done.1 hdone
      exact hthat
    · exact fun h => evaluates_concat_nil.2 ⟨list, m', h, .done _ _⟩
  | link a =>
    constructor
    · intro h
      obtain ⟨x, hx, hdone⟩ := evaluates_concat_link.1 h
      exact ⟨x, hx, evaluates_done.1 hdone⟩
    · rintro ⟨x, hx, hdone⟩
      exact evaluates_concat_link.2 ⟨x, hx, evaluates_done.2 hdone⟩

theorem evaluates_flatMap_iff {f : α → Program α .list} :
    Evaluates m (.flatMap f source .give) list m' ↔ m.Flattens f source list m' := by
  cases source with
  | nil => exact evaluates_flatMap_nil.trans evaluates_done
  | link a =>
    constructor
    · intro h
      obtain ⟨x, inner, m₁, hx, hf, hconcat⟩ := evaluates_flatMap_link.1 h
      exact ⟨x, inner, m₁, hx, hf, evaluates_concat_iff.1 hconcat⟩
    · rintro ⟨x, inner, m₁, hx, hf, hjoins⟩
      exact evaluates_flatMap_link.2 ⟨x, inner, m₁, hx, hf, evaluates_concat_iff.2 hjoins⟩

end AtOnce

/-! ### What is true of the lists -/

namespace Session

/-- What is true, at a moment `T`, of a list that was mapped since the moment `S`. -/
structure Mapped (S T : Session α) (f : α → Program α .element) (source list : LazyList) :
    Prop where
  /-- It consists of the mapped elements of its source, as far as it is known. -/
  contents : ∀ (g : α → α) (A : Stream'.Seq α), (∀ x y, S.Gave (f x) y T → y = g x) →
    T.memory.Agrees source A → T.memory.Agrees list (A.map g)
  /-- A walk along it asks for the tails of the source that it does not have yet, each
  once, and maps the function over each, which applies it to the first element there. -/
  demand : T.memory.Demands (fun left => .map f left .give) source list
  /-- If the source answers and the function does, every walk comes to its end. -/
  progress : ∀ m, T = .rest m → (∀ x n, ∃ y n', Evaluates n (f x) y n') →
    m.Answers source → m.Unspoiled list →
    ∀ count, ∃ rest m', Evaluates m (.walk count list) rest m'

/-- What is true, at a moment `T`, of a list that was joined since the moment `S` with
what a supplier gives. -/
structure Joined (S T : Session α) (that : Program α .list) (source list : LazyList) :
    Prop where
  /-- It consists of the elements of its source and those of the second list. -/
  contents : ∀ A B : Stream'.Seq α, T.memory.Agrees source A →
    (∀ second, S.Gave that second T → T.memory.Agrees second B) →
    T.memory.Agrees list (A.append B)
  /-- Where the source ends, it is the list that the supplier gave, and no other. -/
  second : ∀ count rest, T.memory.Ends source count →
    T.memory.after count list = some rest → S.Gave that rest T
  /-- A walk along it asks for the tails of the source that it does not have yet, each
  once. It joins the second list to each, which runs the supplier at the end. -/
  demand : T.memory.Demands (fun left => .concat left that .give) source list
  /-- If the source answers, and the supplier with a list that does, every walk comes to
  its end. -/
  progress : ∀ m, T = .rest m → (∀ n, ∃ second n', Evaluates n that second n') →
    m.Answers source →
    (∀ n, Reaches (.rest m) (.rest n) → ∀ second, S.Gave that second (.rest n) →
      n.Answers second) →
    m.Unspoiled list → ∀ count, ∃ rest m', Evaluates m (.walk count list) rest m'

/-- What is true, at a moment `T`, of a list that was flattened since the moment `S`, with
a function that gives lists that are not empty. -/
structure Flattened (S T : Session α) (f : α → Program α .list) (source list : LazyList) :
    Prop where
  /-- It consists of the elements of the lists that the function gave. -/
  contents : ∀ (G : α → Stream'.Seq1 α) (A : Stream'.Seq α), T.memory.Agrees source A →
    (∀ x inner, S.Gave (f x) inner T → T.memory.Agrees inner (G x).toSeq) →
    T.memory.Agrees list (A.map G).join
  /-- Each of its links stands for an element of such a list. -/
  stands : ∀ count rest, T.memory.after count list = some rest → S.Stands f source T rest
  /-- A walk along it asks for the tails of these lists. Only at the end of such a list it
  asks for the tail of the source, and applies the function to the next element. -/
  demand : ∀ count rest m', Evaluates T.memory (.walk count list) rest m' ↔
    AlongFlat f T.memory list count rest m'
  /-- If the source answers, and the function with lists that do, every walk comes to its
  end. -/
  progress : ∀ m, T = .rest m → GivesLink f → m.Answers source →
    (∀ n, Reaches (.rest m) (.rest n) → ∀ x inner, S.Gave (f x) inner (.rest n) →
      n.Answers inner) →
    m.Unspoiled list → ∀ count, ∃ rest m', Evaluates m (.walk count list) rest m'

variable {S T : Session α} {source list : LazyList}

theorem Made.mapped (sound : S.Sound) {f : α → Program α .element}
    (made : S.Made (fun _ => .map f source) list T) : S.Mapped T f source list where
  contents _ _ hg hA := made.agrees_map sound hg hA
  demand := (Derived.of_map sound made).demands (derives_map f) sound
  progress := by
    rintro m rfl hf hsource hlist
    exact made.exists_walk_of_map sound hf hsource hlist

theorem Made.joined (sound : S.Sound) {that : Program α .list}
    (made : S.Made (fun _ => .concat source that) list T) : S.Joined T that source list where
  contents _ _ hA hB := made.agrees_concat sound hB hA
  second _ _ hends hrest := made.concat_at_end sound hends hrest
  demand := (Derived.of_concat sound made).demands (derives_concat that) sound
  progress := by
    rintro m rfl hthat hsource hsecond hlist
    exact made.exists_walk_of_concat sound hthat hsource hsecond hlist

theorem Made.flattened (sound : S.Sound) {f : α → Program α .list} (hf : NeverNil f)
    (made : S.Made (fun _ => .flatMap f source) list T) :
    S.Flattened T f source list := by
  have hstands := Stands.of_made sound hf made
  constructor
  case contents => exact fun G A hA hG => made.agrees_flatMap sound hG hA
  case stands => exact fun count rest hrest => hstands.of_after sound hf hrest
  case demand =>
    have hflat := Memory.Flat.of_stands sound hf hstands
    exact fun count rest m' => ⟨.of_evaluates hf hflat, AlongFlat.evaluates⟩
  case progress =>
    rintro m rfl total hsource hinner hlist
    exact hstands.exists_walk sound hf total hsource hinner hlist

end Session

/-- **Lists have eager contents and minimal demand.** At once, mapping applies the
function to the first element, joining runs the supplier only if there is no element, and
flattening applies the function to the first element and joins what comes of the others.
Of a list that was made like this, at any moment since then and whatever was asked for in
between, is true: it consists of what the ordinary function on sequences gives; a walk
along it takes exactly what it demands of the source, of the function and of the supplier,
and of each not more than once; and it comes to its end if these do. -/
theorem operations_have_eager_contents_and_minimal_demand {S T : Session α}
    (sound : S.Sound) (source list : LazyList) :
    (∀ f (m m' : Memory α),
        Evaluates m (.map f source .give) list m' ↔ m.Maps f source list m')
      ∧ (∀ that (m m' : Memory α),
          Evaluates m (.concat source that .give) list m' ↔ m.Joins that source list m')
      ∧ (∀ f (m m' : Memory α),
          Evaluates m (.flatMap f source .give) list m' ↔ m.Flattens f source list m')
      ∧ (∀ f, S.Made (fun _ => .map f source) list T → S.Mapped T f source list)
      ∧ (∀ that, S.Made (fun _ => .concat source that) list T → S.Joined T that source list)
      ∧ ∀ f, NeverNil f → S.Made (fun _ => .flatMap f source) list T →
          S.Flattened T f source list :=
  ⟨fun _ _ _ => evaluates_map_iff, fun _ _ _ => evaluates_concat_iff,
    fun _ _ _ => evaluates_flatMap_iff, fun _ made => made.mapped sound,
    fun _ made => made.joined sound, fun _ hf made => made.flattened sound hf⟩

/-- Ten times an element. -/
def tenfold : Nat → Program Nat .element := fun x => .done (10 * x)

/-- A list of two elements, at the address 1. -/
def oneTwo : Memory Nat := (Memory.empty.add 2 (.ready .nil)).add 1 (.ready (.link 0))

/-- The same with its tenfold, at the address 2. -/
def tenfoldOneTwo : Memory Nat := oneTwo.add 10 (.pending (.code (.mapTail tenfold 1)))

/-- What is left of the two elements: both of them, the second one, or nothing. -/
theorem after_oneTwo {m : Memory Nat} (h : oneTwo.Grows m) {count : Nat} {rest : LazyList}
    (hrest : m.after count (.link 1) = some rest) :
    count = 0 ∧ rest = .link 1 ∨ count = 1 ∧ rest = .link 0 ∨ 2 ≤ count ∧ rest = .nil := by
  have hone : m.tail? 1 = some (.ready (.link 0)) := h.ready rfl
  have htwo : m.tail? 0 = some (.ready .nil) := h.ready rfl
  obtain _ | _ | count := count
  · cases hrest
    exact .inl ⟨rfl, rfl⟩
  · rw [Memory.after_of_ready hone] at hrest
    cases hrest
    exact .inr (.inl ⟨rfl, rfl⟩)
  · rw [Memory.after_of_ready hone, Memory.after_of_ready htwo, Memory.after_nil] at hrest
    cases hrest
    exact .inr (.inr ⟨by omega, rfl⟩)

theorem agrees_oneTwo {m : Memory Nat} (h : oneTwo.Grows m) :
    m.Agrees (.link 1) (.ofList [1, 2]) := by
  intro count rest hrest
  obtain ⟨rfl, rfl⟩ | ⟨rfl, rfl⟩ | ⟨hcount, rfl⟩ := after_oneTwo h hrest
  · exact h.head rfl
  · exact h.head rfl
  · rw [Stream'.Seq.ofList_get?, List.getElem?_eq_none hcount]
    rfl

theorem answers_oneTwo {m : Memory Nat} (h : oneTwo.Grows m) : m.Answers (.link 1) := by
  intro n hn count a hafter
  have hgrows := h.trans (Session.Reaches.sound hn trivial).2
  obtain ⟨-, ha⟩ | ⟨-, ha⟩ | ⟨-, ha⟩ := after_oneTwo hgrows hafter
  · cases ha
    exact ⟨_, _, (evaluates_tail_ready (hgrows.ready rfl)).2 (.done _ _)⟩
  · cases ha
    exact ⟨_, _, (evaluates_tail_ready (hgrows.ready rfl)).2 (.done _ _)⟩
  · cases ha

/-- A session that begins with the two elements, in which their tenfold is made and then
walked along. -/
theorem tenfold_has_eager_contents_and_minimal_demand :
    (Session.rest oneTwo).Sound
      ∧ (Session.rest oneTwo).Made (fun _ => .map tenfold (.link 1)) (.link 2)
        (.rest tenfoldOneTwo)
      ∧ ∃ m : Memory Nat, (Session.rest tenfoldOneTwo).Reaches (.rest m)
        ∧ m.Agrees (.link 2) (Stream'.Seq.map (10 * ·) (.ofList [1, 2]))
        ∧ m.after 1 (.link 2) = some (.link 3) ∧ m.head? 3 = some 20
        ∧ Along (fun left => .map tenfold left .give) tenfoldOneTwo (.link 1) (.link 2) 1
          [.link 0] (.link 3) m
        ∧ ∀ count, ∃ rest m', Evaluates tenfoldOneTwo (.walk count (.link 2)) rest m' := by
  have hmap : Evaluates oneTwo (.map tenfold (.link 1) .give) (.link 2) tenfoldOneTwo :=
    evaluates_iff_run.2 ⟨9, rfl⟩
  have hwalk : Evaluates tenfoldOneTwo (.walk 1 (.link 2)) (.link 3) _ :=
    evaluates_iff_run.2 ⟨9, rfl⟩
  have hmade {T : Session Nat} (hT : Session.Reaches (.rest tenfoldOneTwo) T) :
      (Session.rest oneTwo).Made (fun _ => .map tenfold (.link 1)) (.link 2) T :=
    ⟨.list, .give, .bottom, oneTwo, _, .single (.request _ _), hmap, .head (.finish _ _) hT⟩
  have sound : (Session.rest oneTwo).Sound := trivial
  have htenfold {T : Session Nat} (x y : Nat)
      (h : (Session.rest oneTwo).Gave (tenfold x) y T) : y = 10 * x := by
    obtain ⟨stack, m, m', -, heval, -⟩ := h
    exact (evaluates_done.1 heval).1
  obtain ⟨-, -, -, hearly, -⟩ := operations_have_eager_contents_and_minimal_demand
    (T := .rest tenfoldOneTwo) sound (.link 1) (.link 2)
  have hlate := (operations_have_eager_contents_and_minimal_demand
    sound (.link 1) (.link 2)).2.2.2.1 tenfold (hmade hwalk.reaches)
  have hgrows := hmap.grows.1.trans hwalk.grows.1
  refine ⟨sound, hmade .refl, _, hwalk.reaches, ?_, rfl, rfl, ?_, ?_⟩
  · exact hlate.contents _ _ htenfold (agrees_oneTwo hgrows)
  · exact ((hearly tenfold (hmade .refl)).demand.walk _ _ _).1 hwalk
  · exact (hearly tenfold (hmade .refl)).progress _ rfl (fun x n => ⟨10 * x, n, .done _ _⟩)
      (answers_oneTwo hmap.grows.1) (.of_pending rfl)

end LazyGrammar.LazyList

import Mathlib.Data.Set.Basic
import LazyGrammar.Proofs.LazyList.Contents
import LazyGrammar.Proofs.Search.Delivery

/-!
# LazyGrammar.Proofs.Search.Lists

**Streams as lazy lists.** The frames and tails of a search say how a stream goes on. They do
what `map`, `concat` and `flatMap` do with lazy lists that are computed once: a program makes
a list of what a piece of work delivers if it makes the link of the first outcome, and asking
that link for its tail does the same for the work of the tail (`Lists`).

Design points:

* A program may compute tails of the links that it was given. They are written down beside it,
  with those that it has made; of everything else nothing is changed (`Memory.Keeps`), so a
  list may be left alone while another one is walked.
* The link of an outcome waits with a function that asks another link first. That the machine
  forces a tail in the same order is one lemma for each kind of frame.
-/

namespace LazyGrammar

variable {τ α σ β : Type}

open LazyList (Memory Program Evaluates evaluates_tail_iff evaluates_tail_ready
  evaluates_tail_code evaluates_map_nil evaluates_map_link evaluates_concat_nil
  evaluates_concat_link evaluates_flatMap_nil evaluates_flatMap_link)

/-! ### Programs and what they change -/

namespace LazyList

/-- A memory that has links of another one as they are there. -/
structure Memory.Keeps (m : Memory β) (F : Set Nat) (m' : Memory β) : Prop where
  fresh : m.fresh ≤ m'.fresh
  head : ∀ a ∈ F, m'.head? a = m.head? a
  tail : ∀ a ∈ F, m'.tail? a = m.tail? a

/-- The links of a memory besides some of them. -/
def Memory.others (m : Memory β) (F : Set Nat) : Set Nat := {a | a < m.fresh ∧ a ∉ F}

/-- A program that hands its list on. -/
def Program.andThen (p : Program β .list) (next : LazyList → Program β .list) :
    Program β .list := .concat .nil p next

/-- A program makes a link with an element in front. It uses some links, and leaves all others
alone; the tail of the new link will use some of these and some new ones. -/
structure Program.Makes (p : Program β .list) (m : Memory β) (F : Set Nat) (x : β) (b : Nat)
    (m' : Memory β) (F' : Set Nat) : Prop where
  evaluates : Evaluates m p (.link b) m'
  head : m'.head? b = some x
  kept : m.Keeps (m.others F) m'
  used : ∀ a ∈ F', a ∈ F ∨ m.fresh ≤ a
  below : ∀ a ∈ F', a < m'.fresh
  link : b ∈ F'

variable {m m' m'' : Memory β} {F F' F₁ : Set Nat} {p q : Program β .list}
  {next : LazyList → Program β .list} {list : LazyList} {a b : Nat} {x : β}

theorem evaluates_andThen : Evaluates m (p.andThen next) list m' ↔
    ∃ list₁ m₁, Evaluates m p list₁ m₁ ∧ Evaluates m₁ (next list₁) list m' :=
  evaluates_concat_nil

/-- Asking for a tail and handing it on is asking for it. -/
theorem evaluates_tail_andThen :
    Evaluates m (Program.andThen (.tail a .give) next) list m'
      ↔ Evaluates m (.tail a next) list m' := by
  rw [evaluates_andThen, evaluates_tail_iff]

namespace Memory.Keeps

protected theorem refl (m : Memory β) (F : Set Nat) : m.Keeps F m :=
  ⟨Nat.le_refl _, fun _ _ => rfl, fun _ _ => rfl⟩

protected theorem trans (h : m.Keeps F m') (h' : m'.Keeps F m'') : m.Keeps F m'' where
  fresh := h.fresh.trans h'.fresh
  head a ha := (h'.head a ha).trans (h.head a ha)
  tail a ha := (h'.tail a ha).trans (h.tail a ha)

theorem mono (h : m.Keeps F' m') (hsub : F ⊆ F') : m.Keeps F m' :=
  ⟨h.fresh, fun a ha => h.head a (hsub ha), fun a ha => h.tail a (hsub ha)⟩

/-- What a program leaves alone that may use some links, one after it leaves alone that may
use some of these and new ones. -/
theorem trans_others (h : m.Keeps (m.others F) m') (h' : m'.Keeps (m'.others F') m'')
    (hused : ∀ a ∈ F', a ∈ F ∨ m.fresh ≤ a) : m.Keeps (m.others F) m'' := by
  refine h.trans (h'.mono fun a ha => ⟨Nat.lt_of_lt_of_le ha.1 h.fresh, fun hmem => ?_⟩)
  rcases hused a hmem with hmem | hle
  · exact ha.2 hmem
  · exact absurd ha.1 (Nat.not_lt.2 hle)

/-- What a program leaves alone that may use some links are any other ones. -/
theorem apart (h : m.Keeps (m.others F) m') (hbelow : ∀ a ∈ F', a < m.fresh)
    (hdisjoint : ∀ a ∈ F, a ∉ F') : m.Keeps F' m' :=
  h.mono fun a ha => ⟨hbelow a ha, fun hmem => hdisjoint a hmem ha⟩

/-- A program that may use some links may use more. -/
theorem widen (h : m.Keeps (m.others F) m') : m.Keeps (m.others (F ∪ F')) m' :=
  h.mono fun _ ha => ⟨ha.1, fun hmem => ha.2 (.inl hmem)⟩

/-- A new link changes nothing of the others. -/
theorem add (hF : ∀ a ∈ F, a < m.fresh) (x : β) (t : TailState β) : m.Keeps F (m.add x t) where
  fresh := by simp
  head a ha := by rw [Memory.head?_add, if_neg (hF a ha).ne]
  tail a ha := by rw [Memory.tail?_add, if_neg (hF a ha).ne]

theorem setTail (ha : a ∉ F) (t : TailState β) : m.Keeps F (m.setTail a t) where
  fresh := by simp
  head b _ := Memory.head?_setTail ..
  tail b hb := by
    have hne : b ≠ a := fun heq => ha (heq ▸ hb)
    exact Memory.tail?_setTail_of_ne hne t

/-- The tail of a link that is used may be computed. -/
theorem force {t u : TailState β} (h : (m.setTail a t).Keeps ((m.setTail a t).others F) m') :
    m.Keeps (m.others (insert a F)) (m'.setTail a u) := by
  have hsub : m.others (insert a F) ⊆ (m.setTail a t).others F := fun b hb =>
    ⟨(Memory.fresh_setTail ..).symm ▸ hb.1, fun hmem => hb.2 (Set.mem_insert_of_mem a hmem)⟩
  have hne : a ∉ m.others (insert a F) := fun hmem => hmem.2 (Set.mem_insert a F)
  exact ((setTail hne t).trans (h.mono hsub)).trans (setTail hne u)

end Memory.Keeps

namespace Program.Makes

/-- The links of a new list are not among those that are left alone. -/
theorem apart (h : p.Makes m F x b m' F₁) (hbelow : ∀ a ∈ F', a < m.fresh)
    (hdisjoint : ∀ a ∈ F, a ∉ F') : ∀ a ∈ F₁, a ∉ F' := fun a ha hmem => by
  rcases h.used a ha with hold | hnew
  · exact hdisjoint a hold hmem
  · exact absurd (hbelow a hmem) (Nat.not_lt.2 hnew)

theorem used_union (h : p.Makes m F x b m' F₁) : ∀ a ∈ F₁ ∪ F', a ∈ F ∪ F' ∨ m.fresh ≤ a := by
  intro a ha
  rcases ha with ha | ha
  · exact (h.used a ha).imp .inl id
  · exact .inl (.inr ha)

/-- A program that evaluates as another one does after something else makes what that one
makes. -/
theorem after {m₀ : Memory β} {F₀ : Set Nat} (h : q.Makes m F x b m' F')
    (hbefore : ∀ list m'', Evaluates m q list m'' → Evaluates m₀ p list m'')
    (hkept : m₀.Keeps (m₀.others F₀) m) (hused : ∀ a ∈ F, a ∈ F₀ ∨ m₀.fresh ≤ a) :
    p.Makes m₀ F₀ x b m' F' where
  evaluates := hbefore _ _ h.evaluates
  head := h.head
  kept := hkept.trans_others h.kept hused
  used a ha := by
    rcases h.used a ha with hmem | hle
    · exact hused a hmem
    · exact .inr (hkept.fresh.trans hle)
  below := h.below
  link := h.link

end Program.Makes

end LazyList

/-! ### Work and lists -/

/-- Work delivers outcomes, and a program makes a list of them: the link of the first one, and,
whenever its tail is asked for, the list of what the work delivers afterwards. Other links may
have been used in between. -/
def Lists (g : Grammar τ α σ) (src : Source τ) : (State τ α → State τ α) →
    Program (Outcome τ α) .list → Memory (Outcome τ α) → Set Nat → List (Outcome τ α) → Prop
  | go, p, m, F, [] =>
    Comes g src go .finish ∧ ∃ m', Evaluates m p .nil m' ∧ m.Keeps (m.others F) m'
  | go, p, m, F, o :: os => ∃ tail b m' F', Comes g src go (.give o tail) ∧
    p.Makes m F o b m' F' ∧ ∀ m'', m'.Keeps F' m'' →
      Lists g src (State.goTo · (.force tail)) (.tail b .give) m'' F' os

variable {g : Grammar τ α σ} {src : Source τ} {go go' : State τ α → State τ α}
  {p p' : Program (Outcome τ α) .list} {m m' : Memory (Outcome τ α)} {F F' : Set Nat}
  {os os' : List (Outcome τ α)} {o : Outcome τ α} {tail : Tail τ α} {b : Nat}

namespace Lists

/-- A list of outcomes that is walked to its end consists of them. -/
theorem exists_walk (h : Lists g src go p m F os) :
    ∃ list m₁ m', Evaluates m p list m₁ ∧ m₁.Grows m' ∧
      ∀ i ≤ os.length, ∃ rest, m'.after i list = some rest ∧ m'.first? rest = os[i]? := by
  induction os generalizing go p m F with
  | nil =>
      obtain ⟨-, m', hnil, -⟩ := h
      refine ⟨.nil, m', m', hnil, .refl m', fun i hi => ⟨.nil, Memory.after_nil m' i, ?_⟩⟩
      rw [Nat.le_zero.1 hi]
      rfl
  | cons o os ih =>
      obtain ⟨tail, b, m₁, F', -, hmakes, hrest⟩ := h
      obtain ⟨list, m₂, m', htail, hgrows, hall⟩ := ih (hrest m₁ (.refl m₁ F'))
      have hknown := hgrows.ready htail.tail_known
      refine ⟨.link b, m₁, m', hmakes.evaluates, htail.grows.1.trans hgrows, fun i hi => ?_⟩
      cases i with
      | zero => exact ⟨.link b, rfl, (htail.grows.1.trans hgrows).head hmakes.head⟩
      | succ i =>
          obtain ⟨rest, hafter, hfirst⟩ := hall i (Nat.le_of_succ_le_succ hi)
          exact ⟨rest, (Memory.after_of_ready hknown i).trans hafter, hfirst⟩

/-- A list of what work delivers is one of what it delivers if it turns into that work. -/
theorem becomes (hgo : Becomes g src go go') (h : Lists g src go' p m F os) :
    Lists g src go p m F os := by
  cases os with
  | nil => exact ⟨hgo.comes h.1, h.2⟩
  | cons o os =>
      obtain ⟨tail, b, m', F', hcomes, hrest⟩ := h
      exact ⟨tail, b, m', F', hgo.comes hcomes, hrest⟩

/-- Programs before the one that makes the list may have used the links. -/
theorem after (h : Lists g src go p' m' F' os)
    (hbefore : ∀ list m'', Evaluates m' p' list m'' → Evaluates m p list m'')
    (hkept : m.Keeps (m.others F) m') (hused : ∀ a ∈ F', a ∈ F ∨ m.fresh ≤ a) :
    Lists g src go p m F os := by
  cases os with
  | nil =>
      obtain ⟨hcomes, m'', heval, hkept'⟩ := h
      exact ⟨hcomes, m'', hbefore _ _ heval, hkept.trans_others hkept' hused⟩
  | cons o os =>
      obtain ⟨tail, b, m'', F'', hcomes, hmakes, hrest⟩ := h
      exact ⟨tail, b, m'', F'', hcomes, hmakes.after hbefore hkept hused, hrest⟩

/-- Programs that evaluate alike make the same lists. -/
theorem congr (h : Lists g src go p' m F os)
    (heval : ∀ list m', Evaluates m p' list m' → Evaluates m p list m') :
    Lists g src go p m F os :=
  h.after heval (.refl m _) fun _ => .inl

/-- **A link computes its tail once.** What its function makes is the tail from then on. -/
theorem force {c : Nat} (hc : m.tail? c = some (.pending (.code p))) (hF : c ∉ F)
    (h : Lists g src go p (m.setTail c .taken) F os) :
    Lists g src go (.tail c .give) m (insert c F) os := by
  have heval : ∀ list m', Evaluates (m.setTail c .taken) p list m' →
      Evaluates m (.tail c .give) list (m'.setTail c (.ready list)) := fun list m' heval =>
    (evaluates_tail_code hc).2 ⟨list, m', heval, .done _ _⟩
  cases os with
  | nil =>
      obtain ⟨hcomes, m', hnil, hkept⟩ := h
      exact ⟨hcomes, _, heval _ _ hnil, hkept.force⟩
  | cons o os =>
      obtain ⟨tail, b, m', F', hcomes, hmakes, hrest⟩ := h
      have hc' : c ∉ F' := fun hmem => by
        rcases hmakes.used c hmem with hmem | hle
        · exact hF hmem
        · rw [Memory.fresh_setTail] at hle
          exact absurd (Memory.lt_fresh_of_tail? hc) (Nat.not_lt.2 hle)
      refine ⟨tail, b, m'.setTail c (.ready (.link b)), F', hcomes, ?_, ?_⟩
      · refine ⟨heval _ _ hmakes.evaluates, ?_, hmakes.kept.force, ?_, ?_, hmakes.link⟩
        · rw [Memory.head?_setTail, hmakes.head]
        · intro a ha
          rw [← Memory.fresh_setTail m c .taken]
          exact (hmakes.used a ha).imp (Set.mem_insert_of_mem c) id
        · intro a ha
          rw [Memory.fresh_setTail]
          exact hmakes.below a ha
      · exact fun m'' hkeeps => hrest m'' ((LazyList.Memory.Keeps.setTail hc' _).trans hkeeps)

/-- A program makes a link that waits with a function for the rest. -/
theorem give (hkept : m.Keeps (m.others F) m')
    (heval : Evaluates m p (.link m'.fresh) (m'.add o (.pending (.code p'))))
    (hused : ∀ a ∈ F', a ∈ F ∨ m.fresh ≤ a) (hbelow : ∀ a ∈ F', a < m'.fresh)
    (hrest : ∀ m'', m'.Keeps F' m'' →
      Lists g src (State.goTo · (.force tail)) p' m'' F' os) :
    Lists g src (State.goTo · (.give o tail)) p m F (o :: os) := by
  have hnew : m'.fresh ∉ F' := fun hmem => Nat.lt_irrefl _ (hbelow _ hmem)
  have hadd {F₀ : Set Nat} (hF₀ : ∀ a ∈ F₀, a < m'.fresh) :
      m'.Keeps F₀ (m'.add o (.pending (.code p'))) := .add hF₀ _ _
  refine ⟨tail, m'.fresh, _, insert m'.fresh F', Comes.goTo _, ⟨heval, ?_, ?_, ?_, ?_, ?_⟩, ?_⟩
  · rw [Memory.head?_add, if_pos rfl]
  · exact hkept.trans (hadd fun a ha => Nat.lt_of_lt_of_le ha.1 hkept.fresh)
  · intro a ha
    rcases ha with rfl | ha
    · exact .inr hkept.fresh
    · exact hused a ha
  · intro a ha
    rw [Memory.fresh_add]
    rcases ha with rfl | ha
    · exact Nat.lt_succ_self _
    · exact Nat.lt_succ_of_lt (hbelow a ha)
  · exact Set.mem_insert ..
  · intro m'' hkeeps
    have hc : m''.tail? m'.fresh = some (.pending (.code p')) := by
      rw [hkeeps.tail _ (Set.mem_insert ..), Memory.tail?_add, if_pos rfl]
    refine .force hc hnew (hrest _ ?_)
    exact ((hadd hbelow).trans (hkeeps.mono (Set.subset_insert ..))).trans (.setTail hnew _)

/-- A tail that is known to be empty. -/
theorem done (hb : m.tail? b = some (.ready .nil)) :
    Lists g src (State.goTo · (.force .done)) (.tail b .give) m F [] :=
  ⟨Delivers.forceDone, m, (evaluates_tail_ready hb).2 (.done _ _), .refl _ _⟩

/-- The list of one outcome. -/
theorem single (m : Memory (Outcome τ α)) :
    Lists g src (State.single · o) (.cons o .nil .give) m ∅ [o] := by
  have hbelow : ∀ a ∈ m.others ∅, a < m.fresh := fun a ha => ha.1
  refine ⟨.done, m.fresh, m.add o (.ready .nil), {m.fresh}, Comes.goTo _,
    ⟨.go rfl (.done _ _), ?_, .add hbelow _ _, ?_, ?_, rfl⟩, ?_⟩
  · rw [Memory.head?_add, if_pos rfl]
  · intro a ha
    exact .inr (Nat.le_of_eq (Set.mem_singleton_iff.1 ha).symm)
  · intro a ha
    rw [Memory.fresh_add, Set.mem_singleton_iff.1 ha]
    exact Nat.lt_succ_self _
  · intro m'' hkeeps
    have hc : m''.tail? m.fresh = some (.ready .nil) := by
      rw [hkeeps.tail _ rfl, Memory.tail?_add, if_pos rfl]
    exact .done hc

end Lists

/-! ### Operations -/

namespace Outcome

/-- What is done with an outcome where a function is mapped over the values. -/
def mapped (f : α → Except Fault α) (o : Outcome τ α) : Program (Outcome τ α) .element :=
  match o.result with
  | .error _ => .done o
  | .ok v =>
    match f v with
    | .ok w => .done (.success o.place w)
    | .error e => .raise e

/-- The list that an outcome is replaced by where something else goes on from successes. -/
def continued (next : α → Place → Program (Outcome τ α) .list) (o : Outcome τ α) :
    Program (Outcome τ α) .list :=
  match o.result with
  | .ok v => next v o.place
  | .error e => .cons (.failure e o.place.next) .nil .give

end Outcome

namespace Lists

/-- A mapped stream is a mapped list. -/
theorem map {q : Place} {f : α → Except Fault α} (hf : ∀ v, ∃ w, f v = .ok w)
    (hos : ∀ o ∈ os, o.Fits src q) (h : Lists g src go p m F os) :
    Lists g src (under (.map f) go) (p.andThen (.map (Outcome.mapped f) · .give)) m F
      (os.flatMap (Outcome.followedBy fun v q => Outcome.ofValue q (f v))) := by
  induction os generalizing go p m F with
  | nil =>
      obtain ⟨hcomes, m', hnil, hkept⟩ := h
      refine .becomes (Comes.finish hcomes) ⟨Comes.goTo .finish, m', ?_, hkept⟩
      exact LazyList.evaluates_andThen.2 ⟨_, _, hnil, evaluates_map_nil.2 (.done _ _)⟩
  | cons o os ih =>
      obtain ⟨tail, b, m', F', hcomes, hmakes, hrest⟩ := h
      have hlater : ∀ m'', m'.Keeps F' m'' →
          Lists g src (State.goTo · (.force (.mapped f tail)))
            (.mapTail (Outcome.mapped f) b) m'' F' _ := fun m'' hkeeps =>
        .becomes (.of_step fun _ => rfl)
          ((ih (fun o ho => hos o (List.mem_cons_of_mem _ ho)) (hrest m'' hkeeps)).congr
            fun _ _ => LazyList.evaluates_tail_andThen.1)
      have hlink {o' : Outcome τ α} (ho' : Outcome.mapped f o = .done o') :
          Evaluates m (p.andThen (.map (Outcome.mapped f) · .give)) (.link m'.fresh)
            (m'.add o' (.pending (.code (.mapTail (Outcome.mapped f) b)))) :=
        LazyList.evaluates_andThen.2 ⟨_, _, hmakes.evaluates, evaluates_map_link.2
          ⟨o, o', m', hmakes.head, ho' ▸ .done _ _, .done _ _⟩⟩
      rw [List.flatMap_cons]
      cases hresult : o.result with
      | error e =>
          have hsame := (hos o (List.mem_cons_self ..)).eq_failure hresult
          rw [Outcome.followedBy_error _ hresult, ← hsame]
          refine .becomes (hcomes.deliver fun s => ?_)
            (.give hmakes.kept (hlink ?_) hmakes.used hmakes.below hlater)
          · simp only [Machine.deliver, hresult]
          · simp only [Outcome.mapped, hresult]
      | ok v =>
          obtain ⟨w, hw⟩ := hf v
          rw [Outcome.followedBy_ok _ hresult, hw, Outcome.ofValue]
          refine .becomes (hcomes.deliver fun s => ?_)
            (.give hmakes.kept (hlink ?_) hmakes.used hmakes.below hlater)
          · simp only [Machine.deliver, hresult, hw]
          · simp only [Outcome.mapped, hresult, hw]

/-- A stream that other work goes on from is a list with another one after it, whichever frame
goes on from it. The other list may use links of its own. -/
theorem concat (frame : Frame τ α) {wrap : Tail τ α → Tail τ α} {rest : State τ α → State τ α}
    {that : Program (Outcome τ α) .list}
    (hdeliver : ∀ o tail s, Machine.deliver o tail s frame = .next (s.goTo (.give o (wrap tail))))
    (hforce : ∀ tail s, Machine.force s (wrap tail) = s.push frame (.force tail))
    (hfinish : ∀ s, Machine.finish s frame = rest s) (hbelow : ∀ a ∈ F', a < m.fresh)
    (hdisjoint : ∀ a ∈ F, a ∉ F')
    (hthat : ∀ m', m.Keeps F' m' → Lists g src rest that m' F' os')
    (h : Lists g src go p m F os) :
    Lists g src (under frame go) (p.andThen (.concat · that .give)) m (F ∪ F') (os ++ os') := by
  induction os generalizing go p m F with
  | nil =>
      obtain ⟨hcomes, m', hnil, hkept⟩ := h
      have hend : Becomes g src (under frame go) (Machine.finish · frame) := Comes.finish hcomes
      rw [funext hfinish] at hend
      refine .becomes hend ((hthat m' (hkept.apart hbelow hdisjoint)).after ?_ hkept.widen ?_)
      · exact fun list m'' heval => LazyList.evaluates_andThen.2
          ⟨_, _, hnil, evaluates_concat_nil.2 ⟨_, _, heval, .done _ _⟩⟩
      · exact fun a ha => .inl (.inr ha)
  | cons o os ih =>
      obtain ⟨tail, b, m', F₁, hcomes, hmakes, hrest⟩ := h
      have hkept := hmakes.kept.apart hbelow hdisjoint
      have hlater : ∀ m'', m'.Keeps (F₁ ∪ F') m'' →
          Lists g src (State.goTo · (.force (wrap tail))) (.concatTail that b) m'' (F₁ ∪ F')
            (os ++ os') := by
        intro m'' hkeeps
        have hkept' := hkept.trans (hkeeps.mono Set.subset_union_right)
        have hagain := ih (fun a ha => Nat.lt_of_lt_of_le (hbelow a ha) hkept'.fresh)
          (hmakes.apart hbelow hdisjoint) (fun m₁ hm₁ => hthat m₁ (hkept'.trans hm₁))
          (hrest m'' (hkeeps.mono Set.subset_union_left))
        refine .becomes (.of_step fun s => ?_)
          (hagain.congr fun _ _ => LazyList.evaluates_tail_andThen.1)
        simp only [Machine.step, State.goTo, hforce]
        rfl
      refine .becomes (hcomes.deliver fun s => hdeliver o tail s)
        (.give hmakes.kept.widen ?_ hmakes.used_union ?_ hlater)
      · exact LazyList.evaluates_andThen.2 ⟨_, _, hmakes.evaluates,
          evaluates_concat_link.2 ⟨o, hmakes.head, .done _ _⟩⟩
      · intro a ha
        rcases ha with ha | ha
        · exact hmakes.below a ha
        · exact Nat.lt_of_lt_of_le (hbelow a ha) hkept.fresh

/-- A stream of alternatives is a list with the list of the later ones after it. -/
theorem orElse {later : Later} {that : Program (Outcome τ α) .list}
    (hthat : ∀ m', Lists g src (Machine.tryLater later ·) that m' ∅ os')
    (h : Lists g src go p m F os) :
    Lists g src (under (.orElse later) go) (p.andThen (.concat · that .give)) m F (os ++ os') := by
  have hboth : Lists g src (under (.orElse later) go) _ m (F ∪ ∅) (os ++ os') :=
    h.concat (.orElse later) (fun _ _ _ => rfl) (fun _ _ => rfl) (fun _ => rfl) nofun
      (fun _ _ => nofun) fun m' _ => hthat m'
  rwa [Set.union_empty] at hboth

/-- An outcome with nothing of its own after it, where a sequence goes on from other ones. -/
theorem alone {chain : Chain α} {that : Program (Outcome τ α) .list}
    (hbelow : ∀ a ∈ F, a < m.fresh)
    (hthat : ∀ m', m.Keeps F m' →
      Lists g src (under (.chainOuter chain) (State.goTo · (.force tail))) that m' F os) :
    Lists g src (State.goTo · (.give o (.chained .done tail chain)))
      (Program.andThen (.cons o .nil .give) (.concat · that .give)) m F (o :: os) := by
  let m₁ := m.add o (.ready .nil)
  have hadd {F₀ : Set Nat} (hF₀ : ∀ a ∈ F₀, a < m.fresh) : m.Keeps F₀ m₁ := .add hF₀ _ _
  have hhead : m₁.head? m.fresh = some o := (Memory.head?_add ..).trans (if_pos rfl)
  have hlater : ∀ m', m₁.Keeps ({m.fresh} ∪ F) m' →
      Lists g src (State.goTo · (.force (.chained .done tail chain)))
        (.concatTail that m.fresh) m' ({m.fresh} ∪ F) os := by
    intro m' hkeeps
    have hkept := (hadd hbelow).trans (hkeeps.mono Set.subset_union_right)
    have hnil : m'.tail? m.fresh = some (.ready .nil) := by
      rw [hkeeps.tail _ (.inl rfl), Memory.tail?_add, if_pos rfl]
    have hboth := (Lists.done (F := {m.fresh}) hnil).concat (.chainInner tail chain)
      (fun _ _ _ => rfl) (fun _ _ => rfl) (fun _ => rfl)
      (fun a ha => Nat.lt_of_lt_of_le (hbelow a ha) hkept.fresh)
      (fun a ha hmem => Nat.ne_of_lt (hbelow a hmem) ha) fun m₂ hm₂ => hthat m₂ (hkept.trans hm₂)
    exact .becomes (.of_step fun _ => rfl)
      (hboth.congr fun _ _ => LazyList.evaluates_tail_andThen.1)
  refine .give (hadd fun a ha => ha.1) ?_ ?_ ?_ hlater
  · exact LazyList.evaluates_andThen.2 ⟨_, m₁, .go rfl (.done _ _),
      evaluates_concat_link.2 ⟨o, hhead, .done _ _⟩⟩
  · intro a ha
    rcases ha with rfl | ha
    · exact .inr (Nat.le_refl _)
    · exact .inl ha
  · intro a ha
    rw [Memory.fresh_add]
    rcases ha with rfl | ha
    · exact Nat.lt_succ_self _
    · exact Nat.lt_succ_of_lt (hbelow a ha)

/-- The stream of a sequence is a flattened list. -/
theorem flatMap {q : Place} {chain : Chain α} {next : α → Place → List (Outcome τ α)}
    {go' : α → Place → Program (Outcome τ α) .list} (hos : ∀ o ∈ os, o.Fits src q)
    (hnext : ∀ v q' m, src.Leads q q' → Lists g src
      (State.goTo · (.continue { chain with values := chain.values ++ [v] } q')) (go' v q') m ∅
      (next v q'))
    (h : Lists g src go p m F os) :
    Lists g src (under (.chainOuter chain) go)
      (p.andThen (.flatMap (Outcome.continued go') · .give)) m F
      (os.flatMap (Outcome.followedBy next)) := by
  induction os generalizing go p m F with
  | nil =>
      obtain ⟨hcomes, m', hnil, hkept⟩ := h
      refine .becomes (Comes.finish hcomes) ⟨Comes.goTo .finish, m', ?_, hkept⟩
      exact LazyList.evaluates_andThen.2 ⟨_, _, hnil, evaluates_flatMap_nil.2 (.done _ _)⟩
  | cons o os ih =>
      obtain ⟨tail, b, m', F', hcomes, hmakes, hrest⟩ := h
      -- the lists of later outcomes, which follow that of the first one
      have hlater : ∀ m'', m'.Keeps F' m'' →
          Lists g src (under (.chainOuter chain) (State.goTo · (.force tail)))
            (.flatTail (Outcome.continued go') b) m'' F' _ := fun m'' hkeeps =>
        (ih (fun o ho => hos o (List.mem_cons_of_mem _ ho)) (hrest m'' hkeeps)).congr
          fun _ _ => LazyList.evaluates_tail_andThen.1
      have hfirst : ∀ list m'', Evaluates m' ((Outcome.continued go' o).andThen
          (.concat · (.flatTail (Outcome.continued go') b) .give)) list m'' →
          Evaluates m (p.andThen (.flatMap (Outcome.continued go') · .give)) list m'' := by
        intro list m'' heval
        obtain ⟨list₁, m₁, hone, hconcat⟩ := LazyList.evaluates_andThen.1 heval
        exact LazyList.evaluates_andThen.2 ⟨_, _, hmakes.evaluates,
          evaluates_flatMap_link.2 ⟨o, list₁, m₁, hmakes.head, hone, hconcat⟩⟩
      rw [List.flatMap_cons]
      cases hresult : o.result with
      | error e =>
          -- the failure has a list of its own, with nothing after it
          rw [Outcome.followedBy_error _ hresult, List.singleton_append]
          rw [Outcome.continued, hresult] at hfirst
          refine .becomes (hcomes.deliver fun s => ?_)
            ((Lists.alone hmakes.below hlater).after hfirst hmakes.kept hmakes.used)
          simp only [Machine.deliver, hresult]
      | ok v =>
          rw [Outcome.followedBy_ok _ hresult]
          rw [Outcome.continued, hresult] at hfirst
          have hboth := (hnext v o.place m' (hos o (List.mem_cons_self ..)).way).concat
            (.chainInner tail chain) (fun _ _ _ => rfl) (fun _ _ => rfl) (fun _ => rfl)
            hmakes.below (fun _ ha => absurd ha (Set.notMem_empty _)) hlater
          rw [Set.empty_union] at hboth
          refine .becomes (hcomes.deliver fun s => ?_)
            (hboth.after hfirst hmakes.kept hmakes.used)
          simp only [Machine.deliver, hresult]
          rfl

end Lists

end LazyGrammar

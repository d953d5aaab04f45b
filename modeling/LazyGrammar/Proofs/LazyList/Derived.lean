import LazyGrammar.Proofs.LazyList.Alike
import LazyGrammar.Proofs.LazyList.Evaluation

/-!
# LazyGrammar.Proofs.LazyList.Derived

**Lists made from other lists.** The tail of a mapped, joined or flattened list is
computed from the tail of another list, so a link of such a list waits with a program
that asks for a tail and goes on with what it gets: it is derived from another link.

Design points:

* While the tail of a derived link is computed, the computation of the other tail
  cannot ask for it: it would come back to itself. So it goes as it does without the
  derived link (`Evaluates.tail_under`), and the tail of a derived link takes exactly
  the tail of the other link and what is done with it (`evaluates_derived`).
-/

namespace LazyGrammar.LazyList

variable {α : Type}

/-! ### What an evaluation leaves alone -/

/-- When a call has come back the memory has grown, and what was taken before the call is
taken after it. -/
theorem Memory.Call.grows_receive {kind : Kind} {m m₁ m₂ : Memory α} {frame : Frame α kind}
    (h : m.Call m₁ frame) (x : kind.Answer α)
    (hcalled : m₁.Grows m₂ ∧ ∀ c, m₁.tail? c = some .taken → m₂.tail? c = some .taken) :
    m.Grows (frame.receive m₂ x).2
      ∧ ∀ c, m.tail? c = some .taken → (frame.receive m₂ x).2.tail? c = some .taken := by
  refine ⟨(h.grows.trans hcalled.1).trans (frame.receive_grows (fun c hframe =>
    hcalled.2 c ((h.taken_iff c).2 (.inr hframe))) x), fun c hc => ?_⟩
  have hne : frame.address? ≠ some c := fun heq => by
    obtain ⟨hnone, -⟩ | ⟨d, thunk, hd, hpending, -⟩ := h.takes
    · cases hnone.symm.trans heq
    · obtain rfl : d = c := by simpa [hd] using heq
      cases hpending.symm.trans hc
  exact (frame.taken_receive_iff m₂ x c).2 ⟨hcalled.2 c ((h.taken_iff c).2 (.inl hc)), hne⟩

/-- Memories grow, and a link that was taken before is taken after. -/
theorem Evaluates.grows {kind : Kind} {m m' : Memory α} {p : Program α kind}
    {a : kind.Answer α} (h : Evaluates m p a m') :
    m.Grows m' ∧ ∀ c, m.tail? c = some .taken → m'.tail? c = some .taken := by
  induction h with
  | done m a => exact ⟨.refl m, fun _ => id⟩
  | go turn _ ih =>
    have hedit := edit_of_go turn
    exact ⟨hedit.grows.trans ih.1, fun c hc => ih.2 c (hedit.tail? hc)⟩
  | @call _ _ _ _ _ _ _ _ _ _ x _ turn _ _ ihcalled ihrest =>
    have hcall := (call_of_turn turn).grows_receive x ihcalled
    exact ⟨hcall.1.trans ihrest.1, fun c hc => ihrest.2 c (hcall.2 c hc)⟩

/-- A tail that was asked for is known. -/
theorem Evaluates.tail_known {m m₁ : Memory α} {a : Nat} {list : LazyList}
    (h : Evaluates m (.tail a .give) list m₁) : m₁.tail? a = some (.ready list) := by
  obtain ⟨list', ha⟩ | ⟨callee, q, frame, hframe, hturn⟩ | hturn := turn_tail_cases m a
  · obtain ⟨rfl, rfl⟩ := evaluates_done.1 ((evaluates_tail_ready ha).1 h)
    exact ha
  · obtain ⟨x, m₂, hcalled, hdone⟩ := (evaluates_of_call (hturn .give)).1 h
    obtain ⟨rfl, rfl⟩ := evaluates_done.1 hdone
    have htaken := hcalled.grows.2 a (((call_of_turn (hturn .give)).taken_iff a).2 (.inr hframe))
    simp [Frame.receive, hframe, Memory.keep, Memory.tail?_setTail, frame.made_tail? x htaken]
  · exact absurd h (not_evaluates_of_fail (hturn _))

/-- A program comes to nothing: what it needs before anything else is a tail that is
taken. -/
inductive Memory.Blocked (m : Memory α) : {kind : Kind} → Program α kind → Prop
  | taken {kind : Kind} {a : Nat} {next : LazyList → Program α kind}
      (h : m.tail? a = some .taken) : Blocked m (.tail a next)
  | known {kind : Kind} {a : Nat} {list : LazyList} {next : LazyList → Program α kind}
      (h : m.tail? a = some (.ready list)) (rest : Blocked m (next list)) :
      Blocked m (.tail a next)
  | supplier {kind : Kind} {that : Program α .list} {next : LazyList → Program α kind}
      (h : Blocked m that) : Blocked m (.concat .nil that next)

namespace Memory.Blocked

variable {m m' : Memory α} {kind : Kind} {p : Program α kind}

theorem not_evaluates (h : m.Blocked p) {ans : kind.Answer α} : ¬ Evaluates m p ans m' := by
  induction h generalizing m' with
  | taken ha => exact not_evaluates_tail_taken ha
  | known ha _ ih =>
    rw [evaluates_tail_ready ha]
    exact ih
  | supplier _ ih =>
    rw [evaluates_concat_nil]
    rintro ⟨list, m₁, heval, -⟩
    exact ih heval

theorem of_grows (h : m.Blocked p) (hgrows : m.Grows m')
    (htaken : ∀ c, m.tail? c = some .taken → m'.tail? c = some .taken) : m'.Blocked p := by
  induction h with
  | taken ha => exact .taken (htaken _ ha)
  | known ha _ ih => exact .known (hgrows.ready ha) ih
  | supplier _ ih => exact .supplier ih

end Memory.Blocked

/-- Asking for the tail of a link comes to nothing: it is taken, or what is to compute it
is blocked. -/
def Memory.Stuck (m : Memory α) (b : Nat) : Prop :=
  m.tail? b = some .taken
    ∨ ∃ p, m.tail? b = some (.pending (.code p)) ∧ m.Blocked p

namespace Memory.Stuck

variable {m m' : Memory α} {b : Nat}

theorem not_evaluates (h : m.Stuck b) {kind : Kind} {next : LazyList → Program α kind}
    {ans : kind.Answer α} : ¬ Evaluates m (.tail b next) ans m' := by
  obtain hb | ⟨p, hb, hp⟩ := h
  · exact not_evaluates_tail_taken hb
  · rw [evaluates_tail_code hb]
    rintro ⟨list, m₁, heval, -⟩
    have hcall : m.Call (m.setTail b .taken) (.store b) := .code hb
    exact (hp.of_grows hcall.grows fun c hc => (hcall.taken_iff c).2 (.inl hc)).not_evaluates
      heval

/-- What leaves the link and the taken links alone keeps it stuck. -/
theorem of_same (h : m.Stuck b) (hb : ∀ t, m.tail? b = some t → m'.tail? b = some t)
    (hgrows : m.Grows m')
    (htaken : ∀ c, m.tail? c = some .taken → m'.tail? c = some .taken) : m'.Stuck b := by
  obtain hb' | ⟨p, hb', hp⟩ := h
  · exact .inl (hb _ hb')
  · exact .inr ⟨p, hb _ hb', hp.of_grows hgrows htaken⟩

end Memory.Stuck

theorem Frame.receive_tail? {kind : Kind} {m : Memory α} {frame : Frame α kind} {b : Nat}
    (hne : frame.address? ≠ some b) (x : kind.Answer α) {t : TailState α}
    (hb : m.tail? b = some t) : (frame.receive m x).2.tail? b = some t := by
  unfold Frame.receive Memory.keep
  split
  · next a ha =>
    have hba : b ≠ a := fun heq => hne (heq ▸ ha)
    rw [Memory.tail?_setTail_of_ne hba, frame.made_tail? x hb]
  · exact frame.made_tail? x hb

/-- A program that comes to an answer does not ask for a tail that is stuck. -/
theorem Evaluates.wants_ne {kind : Kind} {m m' : Memory α} {p : Program α kind}
    {a : kind.Answer α} (h : Evaluates m p a m') {b : Nat} (hstuck : m.Stuck b) :
    ∀ c ∈ [b], p.wants ≠ some c := by
  intro c hc hwants
  obtain rfl := List.mem_singleton.1 hc
  cases p with
  | tail address next =>
    cases hwants
    exact hstuck.not_evaluates h
  | _ => cases hwants

/-- An evaluation does not depend on a link that is stuck, and leaves it alone. -/
theorem Evaluates.alike {kind : Kind} {m m' n : Memory α} {p : Program α kind}
    {a : kind.Answer α} (h : Evaluates m p a m') {b : Nat} (hstuck : m.Stuck b)
    (hn : m.AlikeBut [b] n) :
    (∀ t, m.tail? b = some t → m'.tail? b = some t)
      ∧ ∃ n', Evaluates n p a n' ∧ m'.AlikeBut [b] n' := by
  induction h generalizing n with
  | done m a => exact ⟨fun _ => id, n, .done n a, hn⟩
  | @go _ m m₁ _ p _ _ turn rest ih =>
    have hwants := (Evaluates.go turn rest).wants_ne hstuck
    obtain ⟨n₁, hturn, hn₁⟩ := Turn.AlikeBut.eq_go (turn ▸ hn.turn p hwants)
    have hedit := edit_of_go turn
    obtain ⟨htail, n', heval, hn'⟩ :=
      ih (hstuck.of_same (fun _ => hedit.tail?) hedit.grows fun _ => hedit.tail?) hn₁
    exact ⟨fun t ht => htail t (hedit.tail? ht), n', .go hturn heval, hn'⟩
  | @call _ _ m m₁ m₂ _ p _ frame next x _ turn called rest ihcalled ihrest =>
    have hwants := (Evaluates.call turn called rest).wants_ne hstuck
    obtain ⟨n₁, hturn, hn₁, hframe⟩ := Turn.AlikeBut.eq_call (turn ▸ hn.turn p hwants)
    have hc := call_of_turn turn
    have htail₁ (t) (ht : m.tail? b = some t) : m₁.tail? b = some t := by
      obtain ⟨-, hsame⟩ | ⟨d, thunk, hd, -, rfl⟩ := hc.takes
      · rw [hsame, ht]
      · have hne : b ≠ d := fun heq => hframe b (.head _) (heq ▸ hd)
        rw [Memory.tail?_setTail_of_ne hne, ht]
    have hstuck₁ := hstuck.of_same htail₁ hc.grows fun c hc' => (hc.taken_iff c).2 (.inl hc')
    obtain ⟨htail₂, n₂, hcalled, hn₂⟩ := ihcalled hstuck₁ hn₁
    obtain ⟨hlist, hreceive⟩ := hn₂.receive frame hframe x
    have htail₃ (t) (ht : m.tail? b = some t) : (frame.receive m₂ x).2.tail? b = some t :=
      frame.receive_tail? (hframe b (.head _)) x (htail₂ t (htail₁ t ht))
    have hreceived := hc.grows_receive x called.grows
    have hstuck₃ := hstuck.of_same htail₃ hreceived.1 hreceived.2
    obtain ⟨htail₄, n', hrest, hn'⟩ := ihrest hstuck₃ hreceive
    exact ⟨fun t ht => htail₄ t (htail₃ t ht), n', .call hturn hcalled (hlist ▸ hrest), hn'⟩

/-! ### The tail of a derived link -/

theorem Memory.AlikeBut.eq_setTail {m n : Memory α} {b : Nat} (h : m.AlikeBut [b] n)
    {t : TailState α} (hb : n.tail? b = some t) : n = m.setTail b t := by
  refine Memory.ext_of (fun a => by simp [h.head]) (fun a => ?_) h.iterators.symm h.notes.symm
  rw [Memory.tail?_setTail]
  split
  · next hab =>
    subst hab
    obtain ⟨u, hu⟩ := Option.isSome_iff_exists.1
      (Memory.tail?_isSome_iff.2 (h.bound a (.head _)))
    simp [hu, hb]
  · next hab => exact (h.tail a (by simpa using hab)).symm

/-- A link is like itself with its thunk taken out. -/
theorem Memory.alikeBut_taken {m : Memory α} {b : Nat} {thunk : Thunk α}
    (hb : m.tail? b = some (.pending thunk)) : m.AlikeBut [b] (m.setTail b .taken) :=
  (Memory.AlikeBut.of_unknown (by simpa using ⟨_, hb, by simp⟩)).replace (.head _) (by simp)

/-- What asks for a tail that is found is blocked while this tail is computed. -/
theorem Evaluates.blocked {m m₁ : Memory α} {a : Nat} {list : LazyList}
    (h : Evaluates m (.tail a .give) list m₁) {kind : Kind}
    (next : LazyList → Program α kind) : (m.setTail a .taken).Blocked (.tail a next) := by
  obtain ⟨list', ha⟩ | ⟨thunk, ha⟩ := h.ready_or_pending <;>
    exact .taken (Memory.tail?_setTail_of_eq ha _)

/-- A link that waits for its own tail has none. -/
theorem Evaluates.ne_of_blocked {m m₁ : Memory α} {a b : Nat} {p : Program α .list}
    {list : LazyList} (h : Evaluates m (.tail a .give) list m₁)
    (hb : m.tail? b = some (.pending (.code p))) (hp : (m.setTail a .taken).Blocked p) :
    a ≠ b := by
  rintro rfl
  obtain ⟨_, _, heval, -⟩ := (evaluates_tail_code hb).1 h
  exact hp.not_evaluates heval

/-- A tail is found as it is without a link that waits for it, and this link is left
alone. -/
theorem Evaluates.tail_under {m m₁ : Memory α} {a b : Nat} {p : Program α .list}
    {list : LazyList} (h : Evaluates m (.tail a .give) list m₁)
    (hb : m.tail? b = some (.pending (.code p))) (hp : (m.setTail a .taken).Blocked p) :
    m₁.tail? b = some (.pending (.code p))
      ∧ Evaluates (m.setTail b .taken) (.tail a .give) list (m₁.setTail b .taken) := by
  have htaken : (m.setTail b .taken).tail? b = some .taken :=
    Memory.tail?_setTail_of_eq hb _
  have hab := h.ne_of_blocked hb hp
  obtain ⟨list', ha⟩ | ⟨callee, q, frame, hframe, hturn⟩ | hturn := turn_tail_cases m a
  · obtain ⟨rfl, rfl⟩ := evaluates_done.1 ((evaluates_tail_ready ha).1 h)
    have ha' : (m₁.setTail b .taken).tail? a = some (.ready list) := by
      rw [Memory.tail?_setTail_of_ne hab, ha]
    exact ⟨hb, (evaluates_tail_ready ha').2 (.done _ _)⟩
  · obtain ⟨x, m₂, hcalled, hrest⟩ := (evaluates_of_call (hturn .give)).1 h
    obtain ⟨hlist, rfl⟩ := evaluates_done.1 hrest
    have hwants : ∀ c ∈ [b], (Program.tail a .give : Program α .list).wants ≠ some c := by
      simpa [Program.wants] using hab
    obtain ⟨n₁, hturn', hn₁, hother⟩ :=
      Turn.AlikeBut.eq_call (hturn .give ▸ (Memory.alikeBut_taken hb).turn _ hwants)
    -- The computation cannot ask for the waiting link, which would ask for this tail.
    have hb₁ : (m.setTail a .taken).tail? b = some (.pending (.code p)) := by
      rw [Memory.tail?_setTail_of_ne hab.symm, hb]
    obtain ⟨hkept, n₂, hcalled', hn₂⟩ := hcalled.alike (.inr ⟨p, hb₁, hp⟩) hn₁
    obtain ⟨hlist', hn⟩ := hn₂.receive frame hother x
    have heval : Evaluates (m.setTail b .taken) (.tail a .give) list (frame.receive n₂ x).2 :=
      .call hturn' hcalled' (evaluates_done.2 ⟨hlist.trans hlist', rfl⟩)
    refine ⟨frame.receive_tail? (hother b (.head _)) x (hkept _ hb₁), ?_⟩
    rwa [hn.eq_setTail (heval.grows.2 b htaken)] at heval
  · exact absurd h (not_evaluates_of_fail (hturn _))

/-- **The tail of a derived link** takes the other link's tail and what is done with it,
and nothing else. -/
theorem evaluates_derived {m m' : Memory α} {a b : Nat} {k : LazyList → Program α .list}
    {list' : LazyList} (hb : m.tail? b = some (.pending (.code (.tail a k)))) :
    Evaluates m (.tail b .give) list' m' ↔ ∃ list m₁ m₂,
      Evaluates m (.tail a .give) list m₁
      ∧ Evaluates (m₁.setTail b .taken) (k list) list' m₂
      ∧ m' = m₂.setTail b (.ready list') := by
  have htaken : (m.setTail b .taken).tail? b = some .taken :=
    Memory.tail?_setTail_of_eq hb _
  rw [evaluates_tail_code hb]
  constructor
  · rintro ⟨list₁, m₂, heval, hdone⟩
    obtain ⟨rfl, rfl⟩ := evaluates_done.1 hdone
    obtain ⟨list, n, hasked, hrest⟩ := evaluates_tail_iff.1 heval
    obtain ⟨hkept, m₁, hasked', hm₁⟩ :=
      hasked.alike (.inl htaken) (Memory.alikeBut_taken hb).symm
    refine ⟨list, m₁, m₂, hasked', ?_, rfl⟩
    rwa [← hm₁.symm.eq_setTail (hkept _ htaken)]
  · rintro ⟨list, m₁, m₂, hasked, hrest, rfl⟩
    have hunder := (hasked.tail_under hb (hasked.blocked k)).2
    exact ⟨list', m₂, evaluates_tail_iff.2 ⟨list, _, hunder, hrest⟩, .done _ _⟩

end LazyGrammar.LazyList

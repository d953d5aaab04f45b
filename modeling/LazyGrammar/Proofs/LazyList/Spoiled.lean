import LazyGrammar.Proofs.LazyList.Alike

/-!
# LazyGrammar.Proofs.LazyList.Spoiled

**What a fault leaves behind.** A request that gives up spoils the links whose tails
were being computed at that moment, and no others.

Design points:

* The links in progress are the taken ones, but for those that were taken before the
  request (`Request`); so what is taken when the request gives up is known exactly.
* A link that is taken with nobody at work on it stays so (`Reaches.spoiled`).
* Sessions that do not ask for the tail of a spoiled link are those on a memory with
  anything unknown in its place (`Course.alike`). So it does not matter what the spoiled
  links would be otherwise.
-/

namespace LazyGrammar.LazyList

variable {α : Type}

/-! ### Requests -/

/-- A state of a request that was made on the memory `m₀`: what is taken was taken
before or is in progress. -/
structure Request (m₀ : Memory α) (s : State α) : Prop where
  holds : s.stack.Holds s.memory
  taken : ∀ a, s.memory.tail? a = some .taken
    ↔ m₀.tail? a = some .taken ∨ a ∈ s.stack.inProgress
  begun : ∀ a ∈ s.stack.inProgress, m₀.tail? a ≠ some .taken

theorem Request.start (m₀ : Memory α) (p : Program α .list) :
    Request m₀ ⟨p, .bottom, m₀⟩ :=
  ⟨.bottom m₀, fun _ => by simp [Stack.inProgress], fun _ h => absurd h List.not_mem_nil⟩

theorem Request.moves {m₀ : Memory α} {s s' : State α} (hs : Request m₀ s) (h : s.Moves s') :
    Request m₀ s' := by
  have holds' := (h.holds hs.holds).1
  obtain ⟨holds, taken, begun⟩ := hs
  cases h with
  | answer x frame next below =>
    have hnodup := List.nodup_append.1 holds.nodup
    refine ⟨holds', fun a => ?_, fun a ha => begun a (List.mem_append_right _ ha)⟩
    rw [frame.taken_receive_iff, taken]
    simp only [Stack.inProgress, List.mem_append, Option.mem_toList]
    constructor
    · rintro ⟨hold | haddress | hbelow, hne⟩
      · exact .inl hold
      · exact absurd haddress hne
      · exact .inr hbelow
    · rintro (hold | hbelow)
      · exact ⟨.inl hold, fun h => begun a (List.mem_append_left _ (by simp [h])) hold⟩
      · exact ⟨.inr (.inr hbelow), fun h => hnodup.2.2 a (by simp [h]) a hbelow rfl⟩
  | go stack h => exact ⟨holds', fun a => by rw [(edit_of_go h).taken_iff, taken], begun⟩
  | @call _ _ _ _ _ _ frame _ stack h =>
    have hc := call_of_turn h
    refine ⟨holds', fun a => ?_, fun a ha => ?_⟩
    · rw [hc.taken_iff, taken]
      simp only [Stack.inProgress, List.mem_append, Option.mem_toList]
      rw [or_assoc, or_comm (a := a ∈ stack.inProgress)]
    · obtain ha | ha := List.mem_append.1 ha
      · -- What the call begins was pending, so it was not taken before the request.
        intro hold
        obtain ⟨hnone, -⟩ | ⟨b, thunk, hb, hpending, -⟩ := hc.takes
        · simp [hnone] at ha
        · obtain rfl : a = b := by simpa [hb, eq_comm] using ha
          have htaken := (taken a).2 (.inl hold)
          simp [hpending] at htaken
      · exact begun a ha

theorem Request.of_reaches {m₀ : Memory α} {s s' : State α} (hs : Request m₀ s)
    (h : Relation.ReflTransGen State.Moves s s') : Request m₀ s' := by
  induction h with
  | refl => exact hs
  | tail _ hmove ih => exact ih.moves hmove

/-! ### What a fault leaves behind -/

/-- A program that asks for a tail that is taken gives up. -/
theorem step_tail_of_taken {m : Memory α} {a : Nat} (ha : m.tail? a = some .taken)
    {kind : Kind} (next : LazyList → Program α kind) (stack : Stack α kind) :
    step ⟨.tail a next, stack, m⟩ = .fault .tailInProgress m := by
  simp only [step, Program.turn, ha]

/-- Whatever is done from one memory on can be done from the other one, with the same
moments but for the tails of some links, as long as it does not ask for one of them. -/
def Memory.Simulates (links : List Nat) (m m' : Memory α) : Prop :=
  ∀ past T, Session.Course (.rest m) past T →
    (∀ U ∈ past, ∀ a ∈ links, U.wants ≠ some a) →
    ∃ past' T', Session.Course (.rest m') past' T'
      ∧ List.Forall₂ (Session.AlikeBut links) past past' ∧ T.AlikeBut links T'

/-- **A fault spoils exactly the links in progress.** Let a request on any memory `m₀`
give up in a state `s` and leave the memory `m`. The links whose tails were being
computed, each for the one before, are taken in `m`, besides those that were taken
before the request, and no others. They stay unknown, and asking for one of their tails
is a fault. What was known before or came to be known during the request stays known,
with the same list; what was pending and is neither spoiled nor known is pending with
the same thunk. And what is done with the memory from now on is the same as on a memory
with other thunks in the spoiled links, as long as none of their tails is asked for. -/
theorem fault_spoils_links_in_progress {m₀ m : Memory α} {p : Program α .list} {s : State α}
    {fault : Fault} (request : Relation.ReflTransGen State.Moves ⟨p, .bottom, m₀⟩ s)
    (failed : step s = .fault fault m) :
    (∀ a, m.tail? a = some .taken ↔ m₀.tail? a = some .taken ∨ a ∈ s.stack.inProgress)
      ∧ (∀ T, Session.Reaches (.rest m) T → ∀ a ∈ s.stack.inProgress,
          T.memory.isForced a = false
          ∧ ∀ (kind : Kind) (next : LazyList → Program α kind) (stack : Stack α kind),
              ∃ f, step ⟨.tail a next, stack, T.memory⟩ = .fault f T.memory
                ∧ f.message = "lazy list tail forced while it was being computed")
      ∧ (∀ u, Relation.ReflTransGen State.Moves ⟨p, .bottom, m₀⟩ u →
          Relation.ReflTransGen State.Moves u s → ∀ a,
          (∀ list, u.memory.tail? a = some (.ready list) →
            ∀ T, Session.Reaches (.rest m) T → T.memory.tail? a = some (.ready list))
          ∧ ∀ thunk, u.memory.tail? a = some (.pending thunk) →
              a ∈ s.stack.inProgress ∨ (∃ list, m.tail? a = some (.ready list))
                ∨ m.tail? a = some (.pending thunk))
      ∧ ∀ m', m.AlikeBut s.stack.inProgress m' →
          m.Simulates s.stack.inProgress m' ∧ m'.Simulates s.stack.inProgress m := by
  obtain ⟨-, rfl⟩ := turn_of_fault failed
  have hs := (Request.start m₀ p).of_reaches request
  refine ⟨hs.taken, fun T hT a ha => ?_, fun u hu hus a => ⟨?_, ?_⟩, fun m' hm' => ⟨?_, ?_⟩⟩
  · obtain ⟨htaken, -⟩ := hT.spoiled (hs.holds.taken ha) List.not_mem_nil
    refine ⟨by rw [Memory.isForced_eq, htaken], fun kind next stack => ?_⟩
    exact ⟨_, step_tail_of_taken htaken next stack, rfl⟩
  · intro list hready T hT
    have hsound : (Session.work u).Sound := ((Request.start m₀ p).of_reaches hu).holds
    have hfail : Session.Reaches (.work u) T :=
      ((Session.reaches_of_moves hus).tail (.fail (turn_of_fault failed).1)).trans hT
    exact (hfail.sound hsound).2.ready hready
  · intro thunk hpending
    have hu := (Request.start m₀ p).of_reaches hu
    have hgrows : u.memory.Grows s.memory := ((Session.reaches_of_moves hus).sound hu.holds).2
    obtain hsame | htaken | hready := hgrows.pending hpending
    · exact .inr (.inr hsame)
    · -- It was not taken before the request, as it was pending during it.
      obtain hold | hmem := (hs.taken a).1 htaken
      · have htaken := (hu.taken a).2 (.inl hold)
        simp [hpending] at htaken
      · exact .inl hmem
    · exact .inr (.inl hready)
  · exact fun past T hcourse hwants => hcourse.alike (.rest hm') hwants
  · exact fun past T hcourse hwants => hcourse.alike (.rest hm'.symm) hwants

/-- A list whose tail cannot be computed, and the same list mapped. -/
def failingMap : Memory Nat :=
  (Memory.empty.add 1 (.pending (.code (.raise (.raised "tail failed"))))).add 2
    (.pending (.code (Program.mapTail (fun x => .done (2 * x)) 0)))

/-- Asking for the tail of the mapped list spoils both links, and what is done without
their tails is the same as if the thunk of the first one were back. -/
theorem failing_map_spoils_links_in_progress :
    ∃ s fault m, Relation.ReflTransGen State.Moves ⟨.tail 1 .give, .bottom, failingMap⟩ s
      ∧ step s = .fault fault m ∧ s.stack.inProgress = [0, 1]
      ∧ (∀ a, m.tail? a = some .taken ↔ failingMap.tail? a = some .taken ∨ a ∈ [0, 1])
      ∧ m.Simulates [0, 1] (m.setTail 0 (.pending (.code (.raise (.raised "tail failed"))))) := by
  have hmoves := Session.moves_of_run
    (rfl : run 2 (⟨.tail 1 .give, .bottom, failingMap⟩ : State Nat) = _)
  obtain ⟨htaken, -, -, hsimulates⟩ := fault_spoils_links_in_progress hmoves rfl
  have halike := Memory.AlikeBut.of_unknown
    fun a ha => ⟨.taken, (htaken a).2 (.inr ha), by simp⟩
  exact ⟨_, _, _, hmoves, rfl, rfl, htaken,
    (hsimulates _ (halike.replace (.head _) (by simp))).1⟩

end LazyGrammar.LazyList

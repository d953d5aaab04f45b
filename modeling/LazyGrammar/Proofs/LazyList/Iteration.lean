import LazyGrammar.LazyList.Operations
import LazyGrammar.Proofs.LazyList.Demand

/-!
# LazyGrammar.Proofs.LazyList.Iteration

**What iterating over a list evaluates.** An iterator takes the tail after an element before it
gives the element. So iterating up to an element evaluates one tail more than it takes to get
there, and gives nothing for an element whose tail fails, although the element is there.

Design points:

* An iteration is a sequence of runs of the machine, one for each tail. What they come to is the
  walk along the same tails (`evaluates_of_takeFrom`), and budgets only have to be large enough.
* The walk says what was evaluated; the elements are read off the memory after it
  (`Memory.elements`).
-/

namespace LazyGrammar.LazyList

variable {α : Type}

/-- The elements at the start of a list, one for each tail that is known. -/
def Memory.elements (m : Memory α) : Nat → LazyList → List α
  | 0, _ => []
  | _ + 1, .nil => []
  | count + 1, .link a =>
    match m.tail? a with
    | some (.ready list) => (m.head? a).toList ++ m.elements count list
    | _ => []

section Elements

variable {m m₁ m' : Memory α} {a count : Nat} {list rest : LazyList}

@[simp] theorem Memory.elements_nil (m : Memory α) (count : Nat) : m.elements count .nil = [] := by
  cases count <;> rfl

theorem Memory.elements_of_ready (h : m.tail? a = some (.ready list)) (count : Nat) :
    m.elements (count + 1) (.link a) = (m.head? a).toList ++ m.elements count list := by
  simp only [elements, h]

/-- A link with a tail has an element. -/
theorem Memory.exists_head_of_tail {t : TailState α} (h : m.tail? a = some t) :
    ∃ x, m.head? a = some x :=
  Option.isSome_iff_exists.1 (head?_isSome_iff.2 (lt_fresh_of_tail? h))

/-- There is one element for each tail. -/
theorem Memory.length_elements (m : Memory α) (count : Nat) (list : LazyList) :
    (m.elements count list).length = (m.tails count list).length := by
  induction count generalizing list with
  | zero => rfl
  | succ count ih =>
    cases list with
    | nil => simp [tails_nil]
    | link a =>
      cases ha : m.tail? a with
      | none => simp only [elements, tails, ha, List.length_nil]
      | some t =>
        cases t with
        | ready list =>
          obtain ⟨x, hx⟩ := exists_head_of_tail ha
          rw [elements_of_ready ha, tails_of_ready ha, hx, List.length_append, ih, List.length_cons]
          exact Nat.add_comm ..
        | _ => simp only [elements, tails, ha, List.length_nil]

/-! ### Runs -/

theorem perform_ok_iff {budget : Nat} {p : Program α .list} :
    perform budget p m = (.ok list, m') ↔ run budget ⟨p, .bottom, m⟩ = .finished list m' := by
  unfold perform
  constructor
  · intro h
    split at h
    · next hrun =>
      cases h
      exact hrun
    · cases h
    · cases h
  · intro h
    rw [h]

/-- A program is evaluated if and only if it can be run, with any budget from some one on. -/
theorem evaluates_iff_perform {p : Program α .list} :
    Evaluates m p list m' ↔
      ∃ least, ∀ budget, least ≤ budget → perform budget p m = (.ok list, m') := by
  rw [evaluates_iff_run]
  constructor
  · rintro ⟨least, hrun⟩
    refine ⟨least, fun budget hle => perform_ok_iff.2 ?_⟩
    rw [run_of_le hle (by simp [hrun]), hrun]
  · rintro ⟨least, h⟩
    exact ⟨least, perform_ok_iff.1 (h least (Nat.le_refl _))⟩

theorem takeFrom_link (budget count : Nat) (found : Array α) (a : Nat) (m : Memory α) :
    takeFrom budget (count + 1) found (.link a) m =
      match perform budget (.tail a .give) m with
      | (.ok list, m₁) => takeFrom budget count (found ++ (m₁.head? a).toArray) list m₁
      | (.error trouble, m₁) => (.error trouble, m₁) := by
  rcases hp : perform budget (.tail a .give) m with ⟨_ | list, m₁⟩ <;>
    simp only [takeFrom, bind, ExceptT.bind, ExceptT.mk, StateT.bind, hp, ExceptT.bindCont]
  · rfl
  · rfl

/-- The element before a tail and those after it. -/
theorem Evaluates.found_link (htail : Evaluates m (.tail a .give) list m₁)
    (hwalk : Evaluates m₁ (.walk count list) rest m') (found : Array α) :
    found ++ (m₁.head? a).toArray ++ (m'.elements count list).toArray
      = found ++ (m'.elements (count + 1) (.link a)).toArray := by
  obtain ⟨x, hx⟩ := Memory.exists_head_of_tail htail.tail_known
  rw [Memory.elements_of_ready (hwalk.grows.1.ready htail.tail_known), hwalk.grows.1.head hx, hx]
  simp

/-- **An iteration walks along the tails after its elements.** -/
theorem evaluates_of_takeFrom {budget : Nat} {found found' : Array α}
    (h : takeFrom budget count found list m = (.ok (found', rest), m')) :
    Evaluates m (.walk count list) rest m' ∧
      found' = found ++ (m'.elements count list).toArray := by
  induction count generalizing m list found with
  | zero =>
    cases h
    exact ⟨evaluates_walk_zero.2 ⟨rfl, rfl⟩, by simp [Memory.elements]⟩
  | succ count ih =>
    cases list with
    | nil =>
      cases h
      exact ⟨evaluates_walk_nil.2 ⟨rfl, rfl⟩, by simp⟩
    | link a =>
      rw [takeFrom_link] at h
      rcases hp : perform budget (.tail a .give) m with ⟨_ | list, m₁⟩
      · rw [hp] at h
        cases h
      · rw [hp] at h
        have htail := evaluates_iff_run.2 ⟨budget, perform_ok_iff.1 hp⟩
        obtain ⟨hwalk, rfl⟩ := ih h
        exact ⟨evaluates_walk_link.2 ⟨list, m₁, htail, hwalk⟩, htail.found_link hwalk found⟩

/-- **Whatever walks along the tails can be iterated over**, with any budget that is large
enough. -/
theorem Evaluates.exists_takeFrom (h : Evaluates m (.walk count list) rest m')
    (found : Array α) :
    ∃ least, ∀ budget, least ≤ budget → takeFrom budget count found list m
      = (.ok (found ++ (m'.elements count list).toArray, rest), m') := by
  induction count generalizing m list found with
  | zero =>
    obtain ⟨rfl, rfl⟩ := evaluates_walk_zero.1 h
    exact ⟨0, fun _ _ => by simp [Memory.elements]; rfl⟩
  | succ count ih =>
    cases list with
    | nil =>
      obtain ⟨rfl, rfl⟩ := evaluates_walk_nil.1 h
      exact ⟨0, fun _ _ => by simp; rfl⟩
    | link a =>
      obtain ⟨list, m₁, htail, hwalk⟩ := evaluates_walk_link.1 h
      obtain ⟨least, hperform⟩ := evaluates_iff_perform.1 htail
      obtain ⟨least', htake⟩ := ih hwalk (found ++ (m₁.head? a).toArray)
      refine ⟨max least least', fun budget hle => ?_⟩
      rw [takeFrom_link, hperform budget (by omega)]
      exact (htake budget (by omega)).trans (by rw [htail.found_link hwalk])

theorem take_ok_iff {budget : Nat} {xs : List α} :
    take budget count list m = (.ok xs, m') ↔
      ∃ found rest, takeFrom budget count #[] list m = (.ok (found, rest), m') ∧
        found.toList = xs := by
  rcases htake : takeFrom budget count #[] list m with ⟨_ | ⟨found, rest⟩, m₁⟩ <;>
    simp only [take, bind, ExceptT.bind, ExceptT.mk, StateT.bind, htake, ExceptT.bindCont]
  · constructor
    · intro h
      cases h
    · rintro ⟨_, _, h, -⟩
      cases h
  · constructor
    · intro h
      cases h
      exact ⟨found, rest, rfl, rfl⟩
    · rintro ⟨_, _, h, rfl⟩
      cases h
      rfl

end Elements

/-- **An iteration takes the tail after each element that it gives**, the last one included. Some
elements are obtained if and only if as many tails can be: those that are not known yet are
computed in order, and nothing else is. So an element is not obtained if the tail after it cannot
be computed. -/
theorem iteration_takes_the_tail_after_each_element (m : Memory α) (list : LazyList)
    (count : Nat) :
    (∀ xs m', (∃ budget, take budget count list m = (.ok xs, m')) ↔
      ∃ rest, Evaluates m (.walk count list) rest m' ∧ xs = m'.elements count list) ∧
    (∀ budget xs m', take budget count list m = (.ok xs, m') →
      (m'.after count list).isSome ∧ (m'.tails count list).length = xs.length ∧
        (xs.length = count ∨ m'.Ends list xs.length)) := by
  have hwalk : ∀ {budget xs m'}, take budget count list m = (.ok xs, m') →
      ∃ rest, Evaluates m (.walk count list) rest m' ∧ xs = m'.elements count list := by
    intro budget xs m' h
    obtain ⟨found, rest, htake, rfl⟩ := take_ok_iff.1 h
    obtain ⟨heval, rfl⟩ := evaluates_of_takeFrom htake
    exact ⟨rest, heval, by simp⟩
  refine ⟨fun xs m' => ⟨fun ⟨_, h⟩ => hwalk h, ?_⟩, fun budget xs m' h => ?_⟩
  · rintro ⟨rest, heval, rfl⟩
    obtain ⟨budget, htake⟩ := heval.exists_takeFrom #[]
    exact ⟨budget, take_ok_iff.2 ⟨_, rest, htake budget (Nat.le_refl _), by simp⟩⟩
  · obtain ⟨rest, heval, rfl⟩ := hwalk h
    have hafter : (m'.after count list).isSome :=
      Option.isSome_iff_exists.2 ⟨rest, heval.after_walk⟩
    rw [m'.length_elements]
    exact ⟨hafter, rfl, Memory.length_tails hafter⟩

/-- Two lists of one element: the tail of the first one is computed without trouble, and that of
the second one fails. -/
def twoSingles : Memory Nat :=
  (Memory.empty.add 1 (.pending (.code (.give .nil)))).add 2
    (.pending (.code (.raise (.raised "tail failed"))))

/-- The only element of the first list is obtained with the tail after it. -/
theorem iteration_over_twoSingles :
    take 10 1 (.link 0) twoSingles = (.ok [1], twoSingles.setTail 0 (.ready .nil)) ∧
    (∃ rest, Evaluates twoSingles (.walk 1 (.link 0)) rest
      (twoSingles.setTail 0 (.ready .nil))) ∧
    (((twoSingles.setTail 0 (.ready .nil)).after 1 (.link 0)).isSome ∧
      ((twoSingles.setTail 0 (.ready .nil)).tails 1 (.link 0)).length = 1) := by
  obtain ⟨hiff, hgives⟩ := iteration_takes_the_tail_after_each_element twoSingles (.link 0) 1
  have htake : take 10 1 (.link 0) twoSingles
      = (.ok [1], twoSingles.setTail 0 (.ready .nil)) := rfl
  obtain ⟨rest, heval, -⟩ := (hiff [1] _).1 ⟨10, htake⟩
  obtain ⟨hafter, hlength, -⟩ := hgives 10 [1] _ htake
  exact ⟨htake, ⟨rest, heval⟩, hafter, hlength⟩

/-- No tail is needed for the first element of a list, yet the iteration computes one, and it
fails where this one fails. -/
theorem first_element_takes_a_tail :
    (∀ a, twoSingles.isForced a = false) ∧
    twoSingles.first? (.link 0) = some 1 ∧ twoSingles.first? (.link 1) = some 2 ∧
    (∀ budget xs m', take budget 1 (.link 0) twoSingles = (.ok xs, m') → m'.isForced 0 = true) ∧
    ∀ budget xs m', take budget 1 (.link 1) twoSingles ≠ (.ok xs, m') := by
  refine ⟨fun a => ?_, rfl, rfl, fun budget xs m' htake => ?_, fun budget xs m' htake => ?_⟩
  · match a with
    | 0 | 1 | _ + 2 => rfl
  · obtain ⟨found, rest, htakeFrom, -⟩ := take_ok_iff.1 htake
    obtain ⟨list, hready, -⟩ := Memory.ready_of_after (evaluates_of_takeFrom htakeFrom).1.after_walk
    simp only [Memory.isForced, hready]
  · obtain ⟨found, rest, htakeFrom, -⟩ := take_ok_iff.1 htake
    obtain ⟨list, m₁, htail, -⟩ := evaluates_walk_link.1 (evaluates_of_takeFrom htakeFrom).1
    have hpending : twoSingles.tail? 1
        = some (.pending (.code (.raise (.raised "tail failed")))) := rfl
    obtain ⟨list, m₂, hraise, -⟩ := (evaluates_tail_code hpending).1 htail
    exact not_evaluates_of_fail rfl hraise

end LazyGrammar.LazyList

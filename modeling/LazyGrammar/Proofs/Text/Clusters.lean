import LazyGrammar.Position
import Mathlib.Data.Bool.Basic
import Mathlib.Data.List.Basic

/-!
# LazyGrammar.Proofs.Text.Clusters

**Cutting a text between clusters.** The rules look back over any number of characters, but
never over a boundary: what they know there is what they know at the start of a text
(`Context.pass_of_not_joins`). So a text that is cut between two clusters has the clusters of
its two parts (`graphemes_append`), and one that is cut inside of a cluster has no more
clusters than the two parts (`length_graphemes_append_le`).

Design points:

* `Context.of` is all that the rules know of a text, and `Boundary` is what they say of a cut;
  `wholeClusters_iff` has this the same as a cut that no cluster of the text goes over.
* Whether two texts that differ in their first characters have their boundaries at the same
  places is a matter of the pairs of regional indicators: all other rules can only join more
  where more is known (`Context.Over`).
-/

namespace LazyGrammar.Text

variable {data : ClusterData}

/-- What the rules rely on of the properties of characters, in any version of Unicode. -/
structure ClusterData.Lawful (data : ClusterData) : Prop where
  carriageReturn : ∀ c, data.breakClass c = .carriageReturn ↔ c = '\r'
  lineFeed : ∀ c, data.breakClass c = .lineFeed ↔ c = '\n'
  /-- Pictographs are neither controls nor joiners. -/
  pictographic : ∀ c, data.pictographic c = true →
    (data.breakClass c).isControl = false ∧ data.breakClass c ≠ .joiner
  /-- Consonants are no controls. -/
  consonant : ∀ c, data.conjunct c = .consonant → (data.breakClass c).isControl = false
  /-- What goes on with a conjunct goes on with the cluster. -/
  conjunct : ∀ c, data.conjunct c = .linker ∨ data.conjunct c = .extender →
    data.breakClass c = .extending ∨ data.breakClass c = .joiner

/-! ### Contexts -/

namespace Context

/-- All that the rules know of a text. -/
def of (data : ClusterData) (text : List Char) : Context :=
  text.foldl (pass data) (plain .control)

theorem of_cons (c : Char) (text : List Char) :
    of data (c :: text) = text.foldl (pass data) (first data c) :=
  rfl

theorem unpaired_pass (ctx : Context) (c : Char) :
    (ctx.pass data c).unpaired = (data.breakClass c == .regional && !ctx.unpaired) := rfl

/-- What a context remembers of earlier characters fits the class of the last one. -/
structure Sound (ctx : Context) : Prop where
  linking : ctx.last.isControl = true → ctx.linking = .absent
  joined : ctx.linking = .joined → ctx.last = .joiner
  binding : ctx.last.isControl = true → ctx.binding = .absent
  linked : ctx.binding = .linked → ctx.last = .extending ∨ ctx.last = .joiner
  unpaired : ctx.unpaired = true → ctx.last = .regional

variable {ctx ctx' : Context} {c : Char} {text : List Char}

theorem sound_pass (hdata : data.Lawful) (ctx : Context) (c : Char) : (ctx.pass data c).Sound where
  linking hcontrol := by
    have := hdata.pictographic c
    simp only [Context.pass, nextPictographs] at hcontrol ⊢
    grind [BreakClass.isControl]
  joined hjoined := by
    simp only [Context.pass, nextPictographs] at hjoined ⊢
    grind
  binding hcontrol := by
    have := hdata.consonant c
    have := hdata.conjunct c
    simp only [Context.pass, nextConjunct] at hcontrol ⊢
    grind [BreakClass.isControl]
  linked hlinked := by
    have := hdata.conjunct c
    simp only [Context.pass, nextConjunct] at hlinked ⊢
    grind
  unpaired hunpaired := by
    simp only [Context.pass, Bool.and_eq_true, beq_iff_eq] at hunpaired
    exact hunpaired.1

@[simp] theorem of_append (text : List Char) (c : Char) :
    of data (text ++ [c]) = (of data text).pass data c := by
  simp [of]

/-- **A boundary is like the start of a text**: nothing is remembered over it. -/
theorem pass_of_not_joins (hdata : data.Lawful) (h : ctx.Sound)
    (hboundary : joins data ctx c = false) : ctx.pass data c = .first data c := by
  have hpictographs : ctx.nextPictographs data c = (plain .control).nextPictographs data c := by
    have := h.linking
    simp only [joins, nextPictographs, plain] at hboundary ⊢
    grind [BreakClass.isControl]
  have hconjunct : ctx.nextConjunct data c = (plain .control).nextConjunct data c := by
    have := h.binding
    have := hdata.conjunct c
    simp only [joins, nextConjunct, plain] at hboundary ⊢
    grind [BreakClass.isControl]
  have hregional : (data.breakClass c == .regional && !ctx.unpaired)
      = (data.breakClass c == .regional) := by
    have := h.unpaired
    simp only [joins] at hboundary
    grind [BreakClass.isControl]
  simp only [Context.pass, first, hpictographs, hconjunct, hregional]
  simp [plain]

end Context

/-! ### Cuts -/

section Cuts

variable {ctx ctx' : Context} {begun a b text cluster : List Char} {c : Char} {j : Nat}

/-- Whether there is a boundary between two pieces of a text. -/
def Boundary (data : ClusterData) (a b : List Char) : Prop :=
  ∀ c ∈ b.head?, joins data (.of data a) c = false

/-- Whether the first of two pieces is made of whole clusters of the two together. -/
def WholeClusters (segment : Segmentation) (a b : List Char) : Prop :=
  ∃ j, ((segment (a ++ b)).take j).flatten = a

/-- A cut between two clusters splits what is still to be cut. -/
theorem clustersFrom_append (begun : List Char) (hdata : data.Lawful) (h : ctx.Sound)
    (hcut : joins data (a.foldl (Context.pass data) ctx) c = false) :
    clustersFrom data ctx begun (a ++ c :: b)
      = clustersFrom data ctx begun a ++ data.graphemes (c :: b) := by
  induction a generalizing ctx begun with
  | nil =>
      rw [List.foldl_nil] at hcut
      simp [clustersFrom, hcut, ClusterData.graphemes, Context.pass_of_not_joins hdata h hcut]
  | cons x a ih =>
      simp only [List.cons_append, clustersFrom]
      split
      · exact ih (x :: begun) (ctx.sound_pass hdata x) hcut
      · rw [ih [x] (ctx.sound_pass hdata x) hcut, List.cons_append]

theorem graphemes_append (hdata : data.Lawful) (h : Boundary data a b) :
    data.graphemes (a ++ b) = data.graphemes a ++ data.graphemes b := by
  match a, b with
  | [], b => rfl
  | x :: a, [] => simp [ClusterData.graphemes]
  | x :: a, c :: b => exact clustersFrom_append [x] hdata (Context.sound_pass hdata _ x) (h c rfl)

/-- The cluster begun goes on. -/
theorem exists_clustersFrom data (ctx : Context) (begun text : List Char) :
    ∃ more rest, clustersFrom data ctx begun text = (begun.reverse ++ more) :: rest := by
  induction text generalizing ctx begun with
  | nil => exact ⟨[], [], by simp [clustersFrom]⟩
  | cons c text ih =>
      unfold clustersFrom
      split
      · obtain ⟨more, rest, hrest⟩ := ih (ctx.pass data c) (c :: begun)
        exact ⟨c :: more, rest, by simp [hrest]⟩
      · exact ⟨[], clustersFrom data (ctx.pass data c) [c] text, by simp⟩

/-- No cluster is empty. -/
theorem nil_notMem_clustersFrom (hbegun : begun ≠ []) : [] ∉ clustersFrom data ctx begun text := by
  induction text generalizing ctx begun with
  | nil => simpa [clustersFrom] using hbegun
  | cons c text ih =>
      unfold clustersFrom
      split
      · exact ih (List.cons_ne_nil c begun)
      · simpa [hbegun] using ih (List.cons_ne_nil c [])

theorem nil_notMem_graphemes (text : List Char) : [] ∉ data.graphemes text := by
  cases text with
  | nil => exact List.not_mem_nil
  | cons c text => exact nil_notMem_clustersFrom (List.cons_ne_nil c [])

/-- A cut inside of a cluster is not the end of any cluster. -/
theorem flatten_take_clustersFrom_ne (j : Nat) (hbegun : begun ≠ [])
    (hcut : joins data (a.foldl (Context.pass data) ctx) c = true) :
    ((clustersFrom data ctx begun (a ++ c :: b)).take j).flatten ≠ begun.reverse ++ a := by
  induction a generalizing ctx begun j with
  | nil =>
      rw [List.foldl_nil] at hcut
      obtain ⟨more, rest, hrest⟩ := exists_clustersFrom data (ctx.pass data c) (c :: begun) b
      cases j with
      | zero => simpa using hbegun
      | succ j => simp [clustersFrom, hcut, hrest]
  | cons x a ih =>
      simp only [List.cons_append, clustersFrom]
      split
      · simpa using ih j (List.cons_ne_nil x begun) hcut
      · cases j with
        | zero => simp
        | succ j => simpa using ih j (List.cons_ne_nil x []) hcut

/-- **Cuts that the rules allow** are those that no cluster goes over. -/
theorem wholeClusters_iff (hdata : data.Lawful) :
    WholeClusters data.graphemes a b ↔ Boundary data a b := by
  constructor
  · rintro ⟨j, hj⟩ c hc
    obtain ⟨b, rfl⟩ := List.head?_eq_some_iff.1 hc
    rw [← Bool.not_eq_true]
    intro hcut
    cases a with
    | nil => simp [joins, Context.of, Context.plain, BreakClass.isControl] at hcut
    | cons x a =>
        rw [Context.of_cons] at hcut
        exact flatten_take_clustersFrom_ne j (List.cons_ne_nil x []) hcut hj
  · intro h
    exact ⟨(data.graphemes a).length, by simp [graphemes_append hdata h, flatten_graphemes]⟩

/-- A cut stays between clusters when the text after it is cut short. -/
theorem WholeClusters.of_append (hdata : data.Lawful)
    (h : WholeClusters data.graphemes a (b ++ text)) : WholeClusters data.graphemes a b := by
  rw [wholeClusters_iff hdata] at h ⊢
  intro c hc
  exact h c (by simp [Option.mem_def.1 hc])

/-! ### Cuts inside of clusters -/

/-- One context knows all that another knows, pairs of regional indicators apart. -/
structure Context.Over (ctx ctx' : Context) : Prop where
  last : ctx'.last = ctx.last
  linking : ctx'.linking = ctx.linking ∨ ctx'.linking = .absent
  binding : ctx'.binding = ctx.binding ∨ ctx'.binding = .absent

theorem Context.over_first (ctx : Context) (c : Char) :
    (ctx.pass data c).Over (.first data c) where
  last := rfl
  linking := by
    simp only [first, pass, plain, nextPictographs]
    grind
  binding := by
    simp only [first, pass, plain, nextConjunct]
    grind

theorem Context.Over.pass (h : ctx.Over ctx') (c : Char) :
    (ctx.pass data c).Over (ctx'.pass data c) where
  last := rfl
  linking := by
    have := h.linking
    simp only [Context.pass, nextPictographs]
    grind
  binding := by
    have := h.binding
    simp only [Context.pass, nextConjunct]
    grind

/-- Two regional indicators belong together when the first one is not the end of a pair. -/
theorem joins_regional (h : ctx.Sound) (hlast : ctx.last = .regional)
    (hc : data.breakClass c = .regional) : joins data ctx c = ctx.unpaired := by
  have := h.joined
  have := h.linked
  simp only [joins, hlast, hc, BreakClass.isControl, syllableGoesOn]
  grind

/-- Who knows more joins more, where it is not for a pair of regional indicators. -/
theorem Context.Over.joins (hover : ctx.Over ctx') (h' : ctx'.Sound)
    (hpair : ¬(ctx.last = .regional ∧ data.breakClass c = .regional))
    (hjoins : joins data ctx' c = true) : Text.joins data ctx c = true := by
  obtain ⟨hlast, hlinking, hbinding⟩ := hover
  have := h'.unpaired
  simp only [Text.joins, hlast] at *
  grind

/-- **Who knows more finds no more clusters**, but for one that a pair of regional indicators
makes good for which is open for the other only. -/
theorem Context.Over.length_clustersFrom_le (hdata : data.Lawful) (hover : ctx.Over ctx')
    (h : ctx.Sound) (h' : ctx'.Sound) (begun begun' text : List Char) :
    (clustersFrom data ctx begun text).length ≤ (clustersFrom data ctx' begun' text).length
      + if ctx'.unpaired && !ctx.unpaired then 1 else 0 := by
  induction text generalizing ctx ctx' begun begun' with
  | nil => simp [clustersFrom]
  | cons c text ih =>
      have hrest := ih (hover.pass c) (ctx.sound_pass hdata c) (ctx'.sound_pass hdata c)
      by_cases hpair : ctx.last = .regional ∧ data.breakClass c = .regional
      · -- a pair opens on one side where it is closed on the other
        obtain ⟨hlast, hc⟩ := hpair
        simp only [clustersFrom, joins_regional h hlast hc,
          joins_regional h' (hover.last.trans hlast) hc]
        simp only [Context.unpaired_pass, hc, beq_self_eq_true, Bool.true_and] at hrest
        cases hu : ctx.unpaired <;> cases hu' : ctx'.unpaired <;>
          simpa [hu, hu'] using hrest _ _
      · have hnext : ((ctx'.pass data c).unpaired && !(ctx.pass data c).unpaired) = false := by
          have := h.unpaired
          simp only [Context.unpaired_pass]
          grind
        simp only [hnext, Bool.false_eq_true, if_false, Nat.add_zero] at hrest
        have hjoins := hover.joins h' hpair
        simp only [clustersFrom]
        split <;> split
        · exact Nat.le_add_right_of_le (hrest _ _)
        · exact Nat.le_add_right_of_le (Nat.le_succ_of_le (hrest _ _))
        · exact absurd (hjoins ‹_›) ‹_›
        · have := hrest [c] [c]
          simp only [List.length_cons]
          omega

/-- **A text has no more clusters than its pieces**, however it is cut. -/
theorem length_clustersFrom_append_le (begun : List Char) (hdata : data.Lawful)
    (h : ctx.Sound) :
    (clustersFrom data ctx begun (a ++ c :: b)).length
      ≤ (clustersFrom data ctx begun a).length + (data.graphemes (c :: b)).length := by
  induction a generalizing ctx begun with
  | nil =>
      simp only [List.nil_append, clustersFrom, ClusterData.graphemes]
      split
      · have := (Context.over_first ctx c).length_clustersFrom_le hdata (ctx.sound_pass hdata c)
          (Context.sound_pass hdata _ c) (c :: begun) [c] b
        simp only [List.length_singleton]
        split at this <;> omega
      · rename_i hcut
        rw [Bool.not_eq_true] at hcut
        simp [Context.pass_of_not_joins hdata h hcut, Nat.add_comm]
  | cons x a ih =>
      simp only [List.cons_append, clustersFrom]
      split
      · exact ih (x :: begun) (ctx.sound_pass hdata x)
      · have := ih [x] (ctx.sound_pass hdata x)
        simp only [List.length_cons]
        omega

theorem length_graphemes_append_le (hdata : data.Lawful) (a b : List Char) :
    (data.graphemes (a ++ b)).length ≤ (data.graphemes a).length + (data.graphemes b).length := by
  match a, b with
  | [], b => simp
  | x :: a, [] => simp
  | x :: a, c :: b => exact length_clustersFrom_append_le [x] hdata (Context.sound_pass hdata _ x)

/-! ### Line feeds -/

/-- There is always a boundary after a line feed. -/
theorem boundary_of_lineFeed (hdata : data.Lawful) (a b : List Char) :
    Boundary data (a ++ ['\n']) b := by
  intro c _
  have hlast : data.breakClass '\n' = .lineFeed := (hdata.lineFeed _).2 rfl
  simp [joins, Context.pass, hlast, BreakClass.isControl]

/-- What a cluster begun is where its last character is the end of a line. -/
structure Context.Begun (ctx : Context) (begun : List Char) : Prop where
  carriageReturn : ctx.last = .carriageReturn → begun = ['\r']
  lineFeed : '\n' ∈ begun → ctx.last = .lineFeed ∧ (begun = ['\n'] ∨ begun = ['\n', '\r'])

theorem Context.begun_pass (hdata : data.Lawful) (ctx : Context) (c : Char) :
    (ctx.pass data c).Begun [c] where
  carriageReturn hlast := by simpa using (hdata.carriageReturn c).1 hlast
  lineFeed hmem := by
    obtain rfl : '\n' = c := by simpa using hmem
    exact ⟨(hdata.lineFeed _).2 rfl, .inl rfl⟩

theorem Context.Begun.pass (hdata : data.Lawful) (h : ctx.Begun begun)
    (hjoins : joins data ctx c = true) : (ctx.pass data c).Begun (c :: begun) where
  carriageReturn hlast := by
    have hclass : data.breakClass c = .carriageReturn := hlast
    simp [joins, hclass, BreakClass.isControl] at hjoins
  lineFeed hmem := by
    obtain ⟨hreturn, hfeed⟩ := h
    simp only [joins] at hjoins
    rcases List.mem_cons.1 hmem with rfl | hmem
    · have hclass : data.breakClass '\n' = .lineFeed := (hdata.lineFeed _).2 rfl
      simp only [hclass, BreakClass.isControl] at hjoins
      have hlast : ctx.last = .carriageReturn := by simpa using hjoins
      exact ⟨hclass, .inr (by rw [hreturn hlast])⟩
    · simp [hfeed hmem, BreakClass.isControl] at hjoins

theorem cluster_of_lineFeed_mem_from (hdata : data.Lawful) (h : ctx.Begun begun)
    (hcluster : cluster ∈ clustersFrom data ctx begun text) (hmem : '\n' ∈ cluster) :
    cluster = ['\n'] ∨ cluster = ['\r', '\n'] := by
  induction text generalizing ctx begun with
  | nil =>
      obtain rfl : cluster = begun.reverse := by simpa [clustersFrom] using hcluster
      rcases (h.lineFeed (by simpa using hmem)).2 with rfl | rfl <;> simp
  | cons c text ih =>
      rw [clustersFrom] at hcluster
      split at hcluster
      · exact ih (h.pass hdata ‹_›) hcluster
      · rcases List.mem_cons.1 hcluster with rfl | hcluster
        · rcases (h.lineFeed (by simpa using hmem)).2 with rfl | rfl <;> simp
        · exact ih (ctx.begun_pass hdata c) hcluster

/-- **Line feeds stand alone**, or after a carriage return. -/
theorem cluster_of_lineFeed_mem (hdata : data.Lawful) (hcluster : cluster ∈ data.graphemes text)
    (hmem : '\n' ∈ cluster) : cluster = ['\n'] ∨ cluster = ['\r', '\n'] := by
  cases text with
  | nil => cases hcluster
  | cons c text =>
      exact cluster_of_lineFeed_mem_from hdata (Context.begun_pass hdata _ c) hcluster hmem

end Cuts

end LazyGrammar.Text

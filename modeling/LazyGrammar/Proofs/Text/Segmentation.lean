import LazyGrammar.Proofs.Text.Clusters
import Mathlib.Algebra.Group.Nat.Even
import Mathlib.Data.List.DropRight
import Mathlib.Data.List.Induction

/-!
# LazyGrammar.Proofs.Text.Segmentation

**What is relied on of a segmentation.** Lines need only that clusters are pieces of the text
and that a line feed is a cluster of its own or with the carriage return before it
(`Segmentation.Faithful`). Columns need the boundary rules for extended grapheme clusters
themselves (`Segmentation.Standard`).

Design points:

* `ClusterData.Together` states the rules as they are written, with the rows of characters
  they look back over, and `ClusterData.NoBreak` has the order in which they are applied. The
  automaton of `Text.joins` is proved to decide just that (`joins_of_iff`).
* The rules say where a text is cut and thereby what its clusters are: whatever is standard
  for the properties of characters is `ClusterData.graphemes`
  (`Segmentation.Standard.eq_graphemes`). So theorems about a standard segmentation are
  theorems about that one.
-/

namespace LazyGrammar

namespace Text

variable {data : ClusterData} {a b text cluster : List Char} {c x : Char}

/-! ### The rules as they are written -/

/-- A character of one kind with nothing after it but characters of another kind. -/
def Row (first between : Char → Prop) (text : List Char) : Prop :=
  ∃ a x b, text = a ++ x :: b ∧ first x ∧ ∀ y ∈ b, between y

/-- A consonant with extenders and linkers after it. -/
def ConjunctRow (data : ClusterData) : List Char → Prop :=
  Row (data.conjunct · = .consonant)
    fun y => data.conjunct y = .extender ∨ data.conjunct y = .linker

/-- A consonant with extenders and linkers after it, one linker at least. -/
def LinkedRow (data : ClusterData) (text : List Char) : Prop :=
  ∃ a x b, text = a ++ x :: b ∧ data.conjunct x = .consonant ∧
    (∀ y ∈ b, data.conjunct y = .extender ∨ data.conjunct y = .linker) ∧
      ∃ y ∈ b, data.conjunct y = .linker

/-- A pictograph with extenders after it. -/
def PictographRow (data : ClusterData) : List Char → Prop :=
  Row (data.pictographic · = true) (data.breakClass · = .extending)

/-- A pictograph with any extenders and one joiner after it. -/
def JoinedRow (data : ClusterData) (text : List Char) : Prop :=
  ∃ u y, text = u ++ [y] ∧ data.breakClass y = .joiner ∧ PictographRow data u

/-- Neighbours that stay together where neither is a control: the text up to a place, and the
character after it. -/
inductive ClusterData.Together (data : ClusterData) (text : List Char) (c : Char) : Prop
  /-- The parts of a Hangul syllable. -/
  | syllable {x : Char} (hx : x ∈ text.getLast?)
      (h : syllableGoesOn (data.breakClass x) (data.breakClass c) = true)
  /-- Extenders and joiners go on with any cluster. -/
  | extending (h : data.breakClass c = .extending ∨ data.breakClass c = .joiner)
  /-- So do spacing marks. -/
  | spacing (h : data.breakClass c = .spacing)
  /-- What precedes a cluster belongs to it. -/
  | preceding {x : Char} (hx : x ∈ text.getLast?) (h : data.breakClass x = .preceding)
  /-- Two consonants of a conjunct. -/
  | conjunct (hrow : LinkedRow data text) (h : data.conjunct c = .consonant)
  /-- Two pictographs that are joined. -/
  | pictographs (hrow : JoinedRow data text) (h : data.pictographic c = true)
  /-- The second one of a pair of regional indicators, counted from the first of the row. -/
  | pair (hodd : (text.rtakeWhile (data.breakClass · == .regional)).length % 2 = 1)
      (h : data.breakClass c = .regional)

/-- The rules in their order. A carriage return and its line feed stay together, any other
control has a break on both sides, and of all other neighbours `Together` tells. -/
def ClusterData.NoBreak (data : ClusterData) (text : List Char) (c : Char) : Prop :=
  ((∃ x ∈ text.getLast?, data.breakClass x = .carriageReturn) ∧ data.breakClass c = .lineFeed) ∨
    (∀ x ∈ text.getLast?, (data.breakClass x).isControl = false) ∧
      (data.breakClass c).isControl = false ∧ data.Together text c

/-! ### What a context remembers -/

theorem append_singleton_eq_append_cons_iff :
    text ++ [c] = a ++ x :: b ↔
      (b = [] ∧ text = a ∧ c = x) ∨ ∃ b', b = b' ++ [c] ∧ text = a ++ x :: b' := by
  rcases List.eq_nil_or_concat b with rfl | ⟨b, y, rfl⟩
  · simp [List.append_singleton_inj]
  · rw [List.concat_eq_append, ← List.cons_append, ← List.append_assoc, List.append_singleton_inj]
    aesop

theorem not_row_nil {first between : Char → Prop} : ¬Row first between [] := by
  simp [Row]

theorem row_append_singleton {first between : Char → Prop} :
    Row first between (text ++ [c]) ↔ first c ∨ between c ∧ Row first between text := by
  constructor
  · rintro ⟨a, x, b, htext, hfirst, hbetween⟩
    rcases append_singleton_eq_append_cons_iff.1 htext with ⟨rfl, rfl, rfl⟩ | ⟨b, rfl, rfl⟩
    · exact .inl hfirst
    · exact .inr ⟨hbetween c (by simp), a, x, b, rfl, hfirst, fun y hy => hbetween y (by simp [hy])⟩
  · rintro (hc | ⟨hc, a, x, b, rfl, hfirst, hbetween⟩)
    · exact ⟨text, c, [], rfl, hc, by simp⟩
    · refine ⟨a, x, b ++ [c], by simp, hfirst, ?_⟩
      simpa [or_imp, forall_and, hc] using hbetween

theorem conjunctRow_append_singleton :
    ConjunctRow data (text ++ [c]) ↔ data.conjunct c = .consonant ∨
      (data.conjunct c = .extender ∨ data.conjunct c = .linker) ∧ ConjunctRow data text :=
  row_append_singleton

theorem pictographRow_append_singleton :
    PictographRow data (text ++ [c]) ↔
      data.pictographic c = true ∨ data.breakClass c = .extending ∧ PictographRow data text :=
  row_append_singleton

theorem joinedRow_append_singleton :
    JoinedRow data (text ++ [c]) ↔ data.breakClass c = .joiner ∧ PictographRow data text := by
  simp only [JoinedRow, List.append_singleton_inj]
  aesop

theorem linkedRow_append_singleton :
    LinkedRow data (text ++ [c]) ↔ data.conjunct c = .linker ∧ ConjunctRow data text ∨
      data.conjunct c = .extender ∧ LinkedRow data text := by
  constructor
  · rintro ⟨a, x, b, htext, hfirst, hbetween, y, hy, hlinker⟩
    rcases append_singleton_eq_append_cons_iff.1 htext with ⟨rfl, -, -⟩ | ⟨b, rfl, rfl⟩
    · cases hy
    · have hb : ∀ y ∈ b, data.conjunct y = .extender ∨ data.conjunct y = .linker :=
        fun y hy => hbetween y (by simp [hy])
      rcases hbetween c (by simp) with hc | hc
      · have hmem : y ∈ b := by
          rcases List.mem_append.1 hy with hy | hy
          · exact hy
          · obtain rfl : y = c := by simpa using hy
            simp [hc] at hlinker
        exact .inr ⟨hc, a, x, b, rfl, hfirst, hb, y, hmem, hlinker⟩
      · exact .inl ⟨hc, a, x, b, rfl, hfirst, hb⟩
  · rintro (⟨hc, a, x, b, rfl, hfirst, hb⟩ | ⟨hc, a, x, b, rfl, hfirst, hb, y, hy, hlinker⟩)
    · refine ⟨a, x, b ++ [c], by simp, hfirst, ?_, c, by simp, hc⟩
      simpa [or_imp, forall_and, hc] using hb
    · refine ⟨a, x, b ++ [c], by simp, hfirst, ?_, y, by simp [hy], hlinker⟩
      simpa [or_imp, forall_and, hc] using hb

namespace Context

theorem binding_of (data : ClusterData) (text : List Char) :
    ((of data text).binding ≠ .absent ↔ ConjunctRow data text) ∧
      ((of data text).binding = .linked ↔ LinkedRow data text) := by
  induction text using List.reverseRecOn with
  | nil => simp [of, plain, ConjunctRow, not_row_nil, LinkedRow]
  | append_singleton text c ih =>
    rw [conjunctRow_append_singleton, linkedRow_append_singleton, ← ih.1, ← ih.2, of_append]
    simp only [pass, nextConjunct]
    cases data.conjunct c <;> simp

theorem linking_of (hdata : data.Lawful) (text : List Char) :
    ((of data text).linking = .pictograph ↔ PictographRow data text) ∧
      ((of data text).linking = .joined ↔ JoinedRow data text) := by
  induction text using List.reverseRecOn with
  | nil => simp [of, plain, PictographRow, JoinedRow, not_row_nil]
  | append_singleton text c ih =>
    have := hdata.pictographic c
    rw [pictographRow_append_singleton, joinedRow_append_singleton, ← ih.1, of_append]
    simp only [pass, nextPictographs]
    grind

theorem unpaired_of (data : ClusterData) (text : List Char) :
    (of data text).unpaired = true ↔
      (text.rtakeWhile (data.breakClass · == .regional)).length % 2 = 1 := by
  induction text using List.reverseRecOn with
  | nil => simp [of, plain]
  | append_singleton text c ih =>
    rw [of_append, unpaired_pass, List.rtakeWhile_concat]
    split
    · rename_i hc
      simp only [hc, Bool.true_and, Bool.not_eq_true', List.length_append, List.length_singleton]
      rw [← Bool.not_eq_true, ih]
      omega
    · rename_i hc
      simp [hc]

end Context

/-! ### The automaton decides the rules -/

/-- **The automaton applies the rules**: there is no boundary where they allow no break. -/
theorem joins_of_iff (hdata : data.Lawful) (htext : text ≠ []) (c : Char) :
    joins data (.of data text) c = true ↔ data.NoBreak text c := by
  obtain ⟨text, x, rfl⟩ : ∃ front x, text = front ++ [x] :=
    ⟨_, _, (List.dropLast_append_getLast htext).symm⟩
  have hlast : (Context.of data (text ++ [x])).last = data.breakClass x := by
    rw [Context.of_append]
    rfl
  have htogether : data.Together (text ++ [x]) c ↔
      syllableGoesOn (data.breakClass x) (data.breakClass c) = true ∨
        (data.breakClass c = .extending ∨ data.breakClass c = .joiner) ∨
        data.breakClass c = .spacing ∨ data.breakClass x = .preceding ∨
        ((Context.of data (text ++ [x])).binding = .linked ∧ data.conjunct c = .consonant) ∨
        ((Context.of data (text ++ [x])).linking = .joined ∧ data.pictographic c = true) ∨
        ((Context.of data (text ++ [x])).unpaired = true ∧ data.breakClass c = .regional) := by
    rw [(Context.binding_of data _).2, (Context.linking_of hdata _).2, Context.unpaired_of]
    constructor
    · rintro (⟨hx, h⟩ | h | h | ⟨hx, h⟩ | ⟨hrow, h⟩ | ⟨hrow, h⟩ | ⟨hodd, h⟩) <;> simp_all
    · rintro (h | h | h | h | ⟨hrow, h⟩ | ⟨hrow, h⟩ | ⟨hodd, h⟩)
      · exact .syllable (by simp) h
      · exact .extending h
      · exact .spacing h
      · exact .preceding (by simp) h
      · exact .conjunct hrow h
      · exact .pictographs hrow h
      · exact .pair hodd h
  simp only [ClusterData.NoBreak, htogether, joins, hlast, List.getLast?_concat,
    Option.mem_some_iff, exists_eq_left', forall_eq', Bool.or_eq_true, Bool.and_eq_true, beq_iff_eq]
  split_ifs with hend hcontrol
  · simp [hend]
  · rcases hcontrol with hcontrol | hcontrol <;> simp [hend, hcontrol]
  · rw [not_or, Bool.not_eq_true, Bool.not_eq_true] at hcontrol
    simp [hend, hcontrol, or_assoc]

/-! ### Cuttings of one text -/

/-- What the pieces of a cutting are put together to, from the first one on: where it cuts. -/
def Cuts (pieces : List (List Char)) (text : List Char) : Prop :=
  ∃ j, (pieces.take j).flatten = text

section Cuttings

variable {piece : List Char} {pieces pieces' : List (List Char)}

theorem cuts_cons_iff (htext : text ≠ []) :
    Cuts (piece :: pieces) text ↔ ∃ rest, text = piece ++ rest ∧ Cuts pieces rest := by
  constructor
  · rintro ⟨_ | j, hj⟩
    · exact absurd hj.symm htext
    · exact ⟨_, by simpa using hj.symm, j, rfl⟩
  · rintro ⟨rest, rfl, j, rfl⟩
    exact ⟨j + 1, by simp⟩

theorem cuts_head (piece : List Char) (pieces : List (List Char)) : Cuts (piece :: pieces) piece :=
  ⟨1, by simp⟩

theorem cuts_nil_iff : Cuts [] text ↔ text = [] := by
  simp [Cuts, eq_comm]

/-- Cuttings into pieces that are not empty are the same if they cut at the same places. -/
theorem eq_of_cuts_iff (hnil : [] ∉ pieces) (hnil' : [] ∉ pieces')
    (h : ∀ text, Cuts pieces text ↔ Cuts pieces' text) : pieces = pieces' := by
  induction pieces generalizing pieces' with
  | nil =>
    cases pieces' with
    | nil => rfl
    | cons piece pieces' =>
      have := cuts_nil_iff.1 ((h piece).2 (cuts_head piece pieces'))
      simp [this] at hnil'
  | cons piece pieces ih =>
    have hpiece : piece ≠ [] := fun hpiece => hnil (by simp [hpiece])
    cases pieces' with
    | nil => exact absurd (cuts_nil_iff.1 ((h piece).1 (cuts_head piece pieces))) hpiece
    | cons piece' pieces' =>
      have hpiece' : piece' ≠ [] := fun hpiece => hnil' (by simp [hpiece])
      -- each of the first pieces begins with the other
      obtain ⟨rest, hrest, -⟩ := (cuts_cons_iff hpiece).1 ((h piece).1 (cuts_head piece pieces))
      obtain ⟨rest', hrest', -⟩ :=
        (cuts_cons_iff hpiece').1 ((h piece').2 (cuts_head piece' pieces'))
      obtain rfl : piece = piece' := by
        have hlength := congrArg List.length hrest
        have hlength' := congrArg List.length hrest'
        rw [List.length_append] at hlength hlength'
        have hnone : rest = [] := List.length_eq_zero_iff.1 (by omega)
        rw [hrest, hnone, List.append_nil]
      rw [ih (fun hmem => hnil (List.mem_cons_of_mem _ hmem))
        fun hmem => hnil' (List.mem_cons_of_mem _ hmem)]
      intro text
      have htext := h (piece ++ text)
      rw [cuts_cons_iff (by simp [hpiece]), cuts_cons_iff (by simp [hpiece])] at htext
      simpa using htext

end Cuttings

end Text

/-! ### Segmentations -/

namespace Segmentation

open Text

variable {data : ClusterData} {segment segment' : Segmentation}

/-- What lines need of a segmentation. -/
structure Faithful (segment : Segmentation) : Prop where
  /-- The clusters of a text put together are the text. -/
  flatten : ∀ text, (segment text).flatten = text
  /-- A line feed is a cluster of its own or with the carriage return before it. -/
  lineFeed : ∀ text, ∀ cluster ∈ segment text, '\n' ∈ cluster →
    cluster = ['\n'] ∨ cluster = ['\r', '\n']
  /-- No cluster is empty. -/
  nil_notMem : ∀ text, [] ∉ segment text

/-- A segmentation that follows the boundary rules for extended grapheme clusters. -/
structure Standard (data : ClusterData) (segment : Segmentation) : Prop where
  flatten : ∀ text, (segment text).flatten = text
  nil_notMem : ∀ text, [] ∉ segment text
  /-- A text is cut wherever the rules allow a break, and nowhere else. -/
  cut : ∀ text c rest, text ≠ [] →
    (WholeClusters segment text (c :: rest) ↔ ¬data.NoBreak text c)

theorem standard_graphemes (hdata : data.Lawful) : Standard data data.graphemes where
  flatten := flatten_graphemes data
  nil_notMem := nil_notMem_graphemes
  cut text c rest htext := by
    rw [wholeClusters_iff hdata, ← joins_of_iff hdata htext]
    simp [Boundary]

/-- Where a standard segmentation cuts a text, any other one does. -/
theorem Standard.cuts (h : Standard data segment) (h' : Standard data segment')
    {whole text : List Char} (htext : Cuts (segment whole) text) : Cuts (segment' whole) text := by
  obtain ⟨j, hj⟩ := htext
  obtain ⟨rest, rfl⟩ : ∃ rest, whole = text ++ rest := by
    refine ⟨((segment whole).drop j).flatten, ?_⟩
    rw [← hj, ← List.flatten_append, List.take_append_drop, h.flatten]
  by_cases hempty : text = []
  · exact ⟨0, by simp [hempty]⟩
  cases rest with
  | nil => exact ⟨(segment' (text ++ [])).length, by simp [h'.flatten]⟩
  | cons c rest => exact (h'.cut text c rest hempty).2 ((h.cut text c rest hempty).1 ⟨j, hj⟩)

/-- **The rules determine the clusters**: there is one standard segmentation. -/
theorem Standard.eq_graphemes (hdata : data.Lawful) (h : Standard data segment) :
    segment = data.graphemes := by
  have h' := standard_graphemes hdata
  funext text
  exact eq_of_cuts_iff (h.nil_notMem text) (h'.nil_notMem text) fun _ => ⟨h.cuts h', h'.cuts h⟩

theorem Standard.faithful (hdata : data.Lawful) (h : Standard data segment) :
    segment.Faithful := by
  obtain rfl := h.eq_graphemes hdata
  exact ⟨flatten_graphemes data, fun _ _ => cluster_of_lineFeed_mem hdata, nil_notMem_graphemes⟩

end Segmentation

namespace Text

/-! ### The tables of Unicode 17 -/

/-- What bisection finds is in a range. -/
theorem Ranges.exists_of_holdsBetween {rows : Array (Nat × Nat)} {n lo hi : Nat}
    (h : holdsBetween rows n lo hi = true) :
    ∃ row ∈ rows.toList, row.1 ≤ n ∧ n ≤ row.2 := by
  fun_induction holdsBetween rows n lo hi with
  | case1 => cases h
  | case2 _ _ _ _ _ _ _ _ ih => exact ih h
  | case3 _ _ _ _ _ _ _ _ _ ih => exact ih h
  | case4 lo hi _ mid first last hrow hfirst hlast =>
      exact ⟨(first, last), Array.mem_toList_iff.2 (Array.mem_of_getElem? hrow), by omega, by omega⟩
  | case5 => cases h

theorem Ranges.exists_of_has {rows : List (Nat × Nat)} {c : Char}
    (h : (Ranges.ofList rows).has c = true) : ∃ row ∈ rows, row.1 ≤ c.toNat ∧ c.toNat ≤ row.2 := by
  simpa [ofList] using exists_of_holdsBetween h

/-- A control is a line end or stands in the table of controls. -/
theorem breakClass_control {c : Char} (h : (breakClass c).isControl = true) :
    c.toNat ≤ 0x0D ∨ controls.has c = true := by
  simp only [breakClass, apply_ite BreakClass.isControl] at h
  simp only [BreakClass.isControl, ite_self, beq_iff_eq] at h
  rw [Ranges.has]
  grind

/-- No character of a table that is disjoint from that of controls is a control. -/
theorem not_isControl_of_has {rows : List (Nat × Nat)} {c : Char}
    (hrows : ∀ row ∈ rows, 0x0D < row.1 ∧
      ∀ control ∈ ClusterTable.control, row.2 < control.1 ∨ control.2 < row.1)
    (h : (Ranges.ofList rows).has c = true) : (breakClass c).isControl = false := by
  obtain ⟨row, hrow, hfirst, hlast⟩ := Ranges.exists_of_has h
  obtain ⟨hend, hdisjoint⟩ := hrows row hrow
  rw [Bool.eq_false_iff]
  intro hcontrol
  rcases breakClass_control hcontrol with hle | hhas
  · omega
  · obtain ⟨control, hmem, hfirst', hlast'⟩ := Ranges.exists_of_has hhas
    have := hdisjoint control hmem
    omega

theorem not_isControl_of_pictograph {c : Char} (h : pictographs.has c = true) :
    (breakClass c).isControl = false :=
  not_isControl_of_has (by decide +kernel) h

theorem not_isControl_of_consonant {c : Char} (h : conjunctConsonants.has c = true) :
    (breakClass c).isControl = false :=
  not_isControl_of_has (by decide +kernel) h

/-- Linkers extend the cluster before them. -/
theorem breakClass_linker {c : Char} (h : conjunctLinkers.has c = true) :
    breakClass c = .extending := by
  have hrows : ∀ row ∈ ClusterTable.conjunctLinker,
      row.1 = row.2 ∧ breakClass (Char.ofNat row.1) = .extending := by decide +kernel
  obtain ⟨row, hrow, hfirst, hlast⟩ := Ranges.exists_of_has h
  obtain ⟨hsingle, hclass⟩ := hrows row hrow
  have hcode : row.1 = c.toNat := by omega
  rwa [hcode, Char.ofNat_toNat] at hclass

theorem breakClass_eq_carriageReturn : breakClass c = .carriageReturn ↔ c.toNat = 0x0D := by
  simp only [breakClass, apply_ite (· = BreakClass.carriageReturn), reduceCtorEq, ite_self]
  grind

theorem breakClass_eq_lineFeed : breakClass c = .lineFeed ↔ c.toNat = 0x0A := by
  simp only [breakClass, apply_ite (· = BreakClass.lineFeed), reduceCtorEq, ite_self]
  grind

theorem breakClass_eq_joiner : breakClass c = .joiner ↔ c.toNat = 0x200D := by
  simp only [breakClass, apply_ite (· = BreakClass.joiner), reduceCtorEq, ite_self]
  grind

theorem breakClass_ne_joiner_of_pictograph (h : pictographs.has c = true) :
    breakClass c ≠ .joiner := by
  intro hjoiner
  rw [Ranges.has, breakClass_eq_joiner.1 hjoiner] at h
  exact absurd h (by decide +kernel)

/-- **The tables of Unicode 17** are as the rules rely on. -/
theorem lawful_unicode : unicode.Lawful where
  carriageReturn c := breakClass_eq_carriageReturn.trans (Char.toNat_inj (d := '\r'))
  lineFeed c := breakClass_eq_lineFeed.trans (Char.toNat_inj (d := '\n'))
  pictographic _ h := ⟨not_isControl_of_pictograph h, breakClass_ne_joiner_of_pictograph h⟩
  consonant c h := by
    have hhas : conjunctConsonants.has c = true := by
      simp only [unicode, conjunctClass] at h
      grind
    exact not_isControl_of_consonant hhas
  conjunct c h := by
    have := @breakClass_linker c
    simp only [unicode, conjunctClass] at h ⊢
    grind

end Text

/-- The segmentation that runs is the standard one of Unicode 17. -/
theorem Segmentation.standard_unicode : Standard Text.unicode Text.graphemes :=
  standard_graphemes Text.lawful_unicode

end LazyGrammar

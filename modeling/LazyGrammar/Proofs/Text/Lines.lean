import LazyGrammar.Proofs.Text.Segmentation

/-!
# LazyGrammar.Proofs.Text.Lines

**Lines and columns of a text that arrives in pieces.** A tracker sees one piece at a time and
has nothing of the text before but its position. For the line this is enough
(`line_advance`). The column counts every cluster of a piece, so a cluster that is cut counts
once for each of its parts; a line feed makes this good again, because it sets the column
(`advance_append_lineFeed`).

Design points:

* The segmentation is a parameter. What is said of lines, and of the columns of one piece,
  holds for any that is `Faithful`; what is said of cuts needs one that is `Standard`, for
  some properties of characters that are `Lawful`.
* All laws of cuts come from two equations: a text without line feeds adds its clusters to the
  column (`advance_of_notMem`), and of a text with one only the number of lines is left
  (`advance_append_lineFeed`).
* Pieces are taken from the last one backwards, since what a cut does depends on all of the
  text before it.
-/

namespace LazyGrammar.LineColumn

open Text (ClusterData Boundary WholeClusters)

variable {segment : Segmentation} {data : ClusterData} {p q : LineColumn}
  {a b text cluster : List Char} {clusters chunks : List (List Char)}

/-! ### Clusters and line ends -/

theorem endsLine_iff (h : segment.Faithful) (hcluster : cluster ∈ segment text) :
    endsLine cluster = true ↔ '\n' ∈ cluster := by
  constructor
  · intro h
    rcases Bool.or_eq_true_iff.1 h with h | h <;> simp [beq_iff_eq.1 h]
  · intro hmem
    rcases h.lineFeed text cluster hcluster hmem with rfl | rfl <;> rfl

/-- A cluster holds as many line feeds as it ends lines. -/
theorem line_pass (h : segment.Faithful) (p : LineColumn) (hcluster : cluster ∈ segment text) :
    (p.pass cluster).line = p.line + cluster.count '\n' := by
  by_cases hmem : '\n' ∈ cluster
  · rcases h.lineFeed text cluster hcluster hmem with rfl | rfl <;> rfl
  · have hends : endsLine cluster ≠ true := mt (endsLine_iff h hcluster).1 hmem
    simp [pass, hends, List.count_eq_zero_of_not_mem hmem]

theorem line_foldl_pass (h : segment.Faithful) (p : LineColumn)
    (hclusters : ∀ cluster ∈ clusters, cluster ∈ segment text) :
    (clusters.foldl pass p).line = p.line + clusters.flatten.count '\n' := by
  induction clusters generalizing p with
  | nil => simp
  | cons cluster clusters ih =>
      rw [List.forall_mem_cons] at hclusters
      rw [List.foldl_cons, ih _ hclusters.2, line_pass h p hclusters.1, List.flatten_cons,
        List.count_append, Nat.add_assoc]

/-- **The line counts line feeds**, wherever they stand. -/
theorem line_advance (h : segment.Faithful) (p : LineColumn) (text : List Char) :
    (p.advance segment text).line = p.line + text.count '\n' := by
  rw [advance, line_foldl_pass h p (fun _ h => h), h.flatten]

theorem foldl_pass_of_not_endsLine (p : LineColumn)
    (hclusters : ∀ cluster ∈ clusters, endsLine cluster = false) :
    clusters.foldl pass p = ⟨p.line, p.column + clusters.length⟩ := by
  induction clusters generalizing p with
  | nil => rfl
  | cons cluster clusters ih =>
      rw [List.forall_mem_cons] at hclusters
      rw [List.foldl_cons, ih _ hclusters.2, pass, hclusters.1]
      simp [Nat.add_assoc, Nat.add_comm 1]

/-- Without a line feed every cluster is a column. -/
theorem advance_of_notMem (h : segment.Faithful) (p : LineColumn) (hmem : '\n' ∉ text) :
    p.advance segment text = ⟨p.line, p.column + (segment text).length⟩ := by
  refine foldl_pass_of_not_endsLine p fun cluster hcluster => ?_
  rw [← h.flatten text] at hmem
  rw [Bool.eq_false_iff, ne_eq, endsLine_iff h hcluster]
  exact fun hfeed => hmem (List.mem_flatten.2 ⟨cluster, hcluster, hfeed⟩)

theorem one_le_column_foldl_pass (hp : 1 ≤ p.column) (clusters : List (List Char)) :
    1 ≤ (clusters.foldl pass p).column := by
  induction clusters generalizing p with
  | nil => exact hp
  | cons cluster clusters ih =>
      refine ih ?_
      rw [pass]
      split
      · exact Nat.le_refl 1
      · exact Nat.le_succ_of_le hp

/-- The last cluster of a text has its last character, and a line feed only as that one. -/
theorem exists_lastCluster (h : segment.Faithful) (htext : text ≠ []) :
    ∃ clusters cluster, segment text = clusters ++ [cluster] ∧
      (endsLine cluster = true ↔ text.getLast? = some '\n') := by
  rcases List.eq_nil_or_concat (segment text) with hnil | ⟨clusters, cluster, hlast⟩
  · rw [← h.flatten text, hnil] at htext
    exact absurd List.flatten_nil htext
  rw [List.concat_eq_append] at hlast
  have hmem : cluster ∈ segment text := by simp [hlast]
  have hne : cluster ≠ [] := fun hnil => h.nil_notMem text (hnil ▸ hmem)
  have hgetLast : text.getLast? = cluster.getLast? := by
    rw [← h.flatten text, hlast, List.flatten_append, List.flatten_singleton,
      List.getLast?_append_of_ne_nil _ hne]
  refine ⟨clusters, cluster, hlast, ?_⟩
  rw [endsLine_iff h hmem, hgetLast]
  refine ⟨fun hfeed => ?_, List.mem_of_getLast?⟩
  rcases h.lineFeed text cluster hmem hfeed with rfl | rfl <;> rfl

/-- A text leads to the first column if it ends with a line feed, and otherwise only if it
is empty. -/
theorem column_advance_eq_one_iff (h : segment.Faithful) (hp : 1 ≤ p.column) (text : List Char) :
    (p.advance segment text).column = 1 ↔
      (text = [] ∧ p.column = 1) ∨ text.getLast? = some '\n' := by
  by_cases htext : text = []
  · have hnil : segment [] = [] := by
      refine List.eq_nil_iff_forall_not_mem.2 fun cluster hcluster => ?_
      have hempty : cluster = [] := List.flatten_eq_nil_iff.1 (h.flatten []) cluster hcluster
      exact h.nil_notMem [] (hempty ▸ hcluster)
    simp [htext, advance, hnil]
  · obtain ⟨clusters, cluster, hsegment, hends⟩ := exists_lastCluster h htext
    have hpos : 1 ≤ (clusters.foldl pass p).column := one_le_column_foldl_pass hp clusters
    rw [advance, hsegment, List.foldl_concat, pass, ← hends]
    split
    · simp [*]
    · simp only [htext, false_and, false_or]
      constructor
      · intro hcolumn
        omega
      · exact fun hend => absurd hend ‹_›

/-- A text that ends with a line feed leaves the first column. -/
theorem column_advance_lineFeed (h : segment.Faithful) (p : LineColumn) (a : List Char) :
    (p.advance segment (a ++ ['\n'])).column = 1 := by
  have htext : a ++ ['\n'] ≠ [] := by simp
  obtain ⟨clusters, cluster, hsegment, hends⟩ := exists_lastCluster h htext
  have hend : endsLine cluster = true := hends.2 (by simp)
  rw [advance, hsegment, List.foldl_concat, pass, if_pos hend]

/-! ### Pieces -/

/-- The last line feed of a text. -/
theorem exists_lastLine (h : '\n' ∈ text) : ∃ a b, text = a ++ '\n' :: b ∧ '\n' ∉ b := by
  obtain ⟨b, a, hreverse, hb⟩ := List.eq_append_cons_of_mem (List.mem_reverse.2 h)
  refine ⟨a.reverse, b.reverse, ?_, by simpa using hb⟩
  rw [← text.reverse_reverse, hreverse]
  simp

/-- Every cut stands before a line feed of the text or between two of its clusters. -/
def CutsWhole (segment : Segmentation) (chunks : List (List Char)) : Prop :=
  ∀ before after, chunks = before ++ after →
    '\n' ∈ after.flatten ∨ WholeClusters segment before.flatten after.flatten

section Standard

variable (hdata : data.Lawful) (h : segment.Standard data)

include hdata h

theorem advance_append (p : LineColumn) (hcut : Boundary data a b) :
    p.advance segment (a ++ b) = (p.advance segment a).advance segment b := by
  obtain rfl := h.eq_graphemes hdata
  rw [advance, Text.graphemes_append hdata hcut, List.foldl_append, advance, advance]

/-- Of a text that a line feed ends only the number of lines is left. -/
theorem advance_append_lineFeed (p : LineColumn) (a b : List Char) :
    p.advance segment (a ++ '\n' :: b) = advance segment ⟨p.line + a.count '\n' + 1, 1⟩ b := by
  have hend : p.advance segment (a ++ ['\n']) = ⟨p.line + a.count '\n' + 1, 1⟩ := by
    rw [LineColumn.mk.injEq]
    constructor
    · rw [line_advance (h.faithful hdata), List.count_append, Nat.add_assoc]
      rfl
    · exact column_advance_lineFeed (h.faithful hdata) p a
  rw [List.append_cons, advance_append hdata h p (Text.boundary_of_lineFeed hdata a b), hend]

/-- A piece with a line feed sets the column, whatever stands before it. -/
theorem advance_append_of_lineFeed (p : LineColumn) (hb : '\n' ∈ b) :
    p.advance segment (a ++ b) = (p.advance segment a).advance segment b := by
  obtain ⟨b, rest, rfl⟩ := List.append_of_mem hb
  rw [← List.append_assoc, advance_append_lineFeed hdata h, advance_append_lineFeed hdata h,
    line_advance (h.faithful hdata), List.count_append, ← Nat.add_assoc p.line]

/-- Without line feeds no cut takes columns away. -/
theorem column_advance_append_le_of_notMem (p : LineColumn) (ha : '\n' ∉ a) (hb : '\n' ∉ b) :
    (p.advance segment (a ++ b)).column
      ≤ ((p.advance segment a).advance segment b).column := by
  have hlength : (segment (a ++ b)).length ≤ (segment a).length + (segment b).length := by
    obtain rfl := h.eq_graphemes hdata
    exact Text.length_graphemes_append_le hdata a b
  have hfaithful := h.faithful hdata
  rw [advance_of_notMem hfaithful p (by simp [ha, hb]), advance_of_notMem hfaithful p ha,
    advance_of_notMem hfaithful _ hb]
  dsimp only
  omega

/-- **No cut takes columns away.** -/
theorem column_advance_append_le (p : LineColumn) (a b : List Char) :
    (p.advance segment (a ++ b)).column
      ≤ ((p.advance segment a).advance segment b).column := by
  by_cases hb : '\n' ∈ b
  · exact Nat.le_of_eq (congrArg column (advance_append_of_lineFeed hdata h p hb))
  · by_cases ha : '\n' ∈ a
    · -- only the last line of the first piece is left
      obtain ⟨a, last, rfl, hlast⟩ := exists_lastLine ha
      rw [List.append_assoc, List.cons_append, advance_append_lineFeed hdata h,
        advance_append_lineFeed hdata h]
      exact column_advance_append_le_of_notMem hdata h _ hlast hb
    · exact column_advance_append_le_of_notMem hdata h p ha hb

theorem advance_congr_of_lineFeed (hline : p.line = q.line) (htext : '\n' ∈ text) :
    p.advance segment text = q.advance segment text := by
  obtain ⟨a, b, rfl⟩ := List.append_of_mem htext
  rw [advance_append_lineFeed hdata h, advance_append_lineFeed hdata h, hline]

/-- A piece takes two positions of one line on in the same way. -/
theorem column_advance_mono (hline : p.line = q.line) (hcolumn : p.column ≤ q.column)
    (text : List Char) : (p.advance segment text).column ≤ (q.advance segment text).column := by
  by_cases htext : '\n' ∈ text
  · exact Nat.le_of_eq (congrArg column (advance_congr_of_lineFeed hdata h hline htext))
  · rw [advance_of_notMem (h.faithful hdata) p htext, advance_of_notMem (h.faithful hdata) q htext]
    exact Nat.add_le_add_right hcolumn _

/-! ### Runs over pieces -/

theorem line_foldl_advance (p : LineColumn) (chunks : List (List Char)) :
    (chunks.foldl (advance segment) p).line = (p.advance segment chunks.flatten).line := by
  have hline := line_advance (h.faithful hdata)
  induction chunks generalizing p with
  | nil => rw [List.foldl_nil, List.flatten_nil, hline, List.count_nil, Nat.add_zero]
  | cons chunk chunks ih =>
      rw [List.foldl_cons, ih, hline, hline, hline, List.flatten_cons, List.count_append,
        Nat.add_assoc]

theorem advance_nil (p : LineColumn) : p.advance segment [] = p := by
  obtain rfl := h.eq_graphemes hdata
  rfl

theorem column_le_foldl_advance (p : LineColumn) (chunks : List (List Char)) :
    (p.advance segment chunks.flatten).column ≤ (chunks.foldl (advance segment) p).column := by
  induction chunks using List.reverseRecOn with
  | nil => rw [List.flatten_nil, List.foldl_nil, advance_nil hdata h]
  | append_singleton chunks chunk ih =>
      rw [List.foldl_concat, List.flatten_append, List.flatten_singleton]
      exact Nat.le_trans (column_advance_append_le hdata h p chunks.flatten chunk)
        (column_advance_mono hdata h (line_foldl_advance hdata h p chunks).symm ih chunk)

theorem foldl_advance_eq (p : LineColumn) (hcuts : CutsWhole segment chunks) :
    chunks.foldl (advance segment) p = p.advance segment chunks.flatten := by
  induction chunks using List.reverseRecOn with
  | nil => rw [List.flatten_nil, List.foldl_nil, advance_nil hdata h]
  | append_singleton chunks chunk ih =>
      rw [List.foldl_concat, List.flatten_append, List.flatten_singleton]
      by_cases hchunk : '\n' ∈ chunk
      · rw [advance_append_of_lineFeed hdata h p hchunk]
        exact advance_congr_of_lineFeed hdata h (line_foldl_advance hdata h p chunks) hchunk
      · obtain rfl := h.eq_graphemes hdata
        have hlast : WholeClusters data.graphemes chunks.flatten chunk := by
          simpa [hchunk] using hcuts chunks [chunk] rfl
        have hrest : CutsWhole data.graphemes chunks := by
          intro before after hchunks
          have hcut := hcuts before (after ++ [chunk]) (by rw [hchunks, List.append_assoc])
          rw [List.flatten_append, List.flatten_singleton, List.mem_append, or_iff_left hchunk]
            at hcut
          exact hcut.imp_right (Text.WholeClusters.of_append hdata)
        rw [ih hrest, advance_append hdata h p ((Text.wholeClusters_iff hdata).1 hlast)]

end Standard

end LazyGrammar.LineColumn

namespace LazyGrammar

open LineColumn (CutsWhole)

/-- **Positions of a text in pieces**, for any segmentation that follows the boundary rules. The
line is that of the whole text, and the column is not before that of the whole text. Both are
the same when no cut in the last line goes through a cluster. -/
theorem lineColumn_pieces {data : Text.ClusterData} (hdata : data.Lawful)
    {segment : Segmentation} (h : segment.Standard data) (chunks : List (List Char)) :
    (chunks.foldl (Tracker.lineColumn segment).next (Tracker.lineColumn segment).start).line
        = ((Tracker.lineColumn segment).next (Tracker.lineColumn segment).start
            chunks.flatten).line ∧
      ((Tracker.lineColumn segment).next (Tracker.lineColumn segment).start
          chunks.flatten).column
        ≤ (chunks.foldl (Tracker.lineColumn segment).next
            (Tracker.lineColumn segment).start).column ∧
      (CutsWhole segment chunks →
        chunks.foldl (Tracker.lineColumn segment).next (Tracker.lineColumn segment).start
          = (Tracker.lineColumn segment).next (Tracker.lineColumn segment).start
              chunks.flatten) :=
  ⟨LineColumn.line_foldl_advance hdata h .start chunks,
    LineColumn.column_le_foldl_advance hdata h .start chunks,
    LineColumn.foldl_advance_eq hdata h .start⟩

/-- A carriage return and its line feed come in two pieces, an accent with its letter in one. -/
theorem lineColumn_pieces_whole :
    Text.unicode.Lawful ∧ Segmentation.Standard Text.unicode Text.graphemes ∧
      CutsWhole Text.graphemes [['a', '\r'], ['\n', 'e', '\u0301'], ['x']] ∧
      [['a', '\r'], ['\n', 'e', '\u0301'], ['x']].foldl (Tracker.lineColumn Text.graphemes).next
        (Tracker.lineColumn Text.graphemes).start = ⟨2, 3⟩ := by
  have hcuts : CutsWhole Text.graphemes [['a', '\r'], ['\n', 'e', '\u0301'], ['x']] := by
    rintro (_ | ⟨_, _ | ⟨_, _ | ⟨_, before⟩⟩⟩) after hafter <;>
      simp only [List.nil_append, List.cons_append, List.cons.injEq, List.nil_eq,
        List.append_eq_nil_iff] at hafter
    · obtain rfl := hafter
      exact .inl (by decide)
    · obtain ⟨rfl, rfl⟩ := hafter
      exact .inl (by decide)
    · obtain ⟨rfl, rfl, rfl⟩ := hafter
      exact .inr ⟨3, by decide +kernel⟩
    · obtain ⟨rfl, rfl, rfl, rfl, rfl⟩ := hafter
      exact .inr ⟨4, by decide +kernel⟩
  have hsame := (lineColumn_pieces Text.lawful_unicode Segmentation.standard_unicode _).2.2 hcuts
  exact ⟨Text.lawful_unicode, Segmentation.standard_unicode, hcuts,
    hsame.trans (by decide +kernel)⟩

/-- A letter and its accent in two pieces count twice. -/
theorem lineColumn_pieces_ne :
    Text.unicode.Lawful ∧ Segmentation.Standard Text.unicode Text.graphemes ∧
      [['e'], ['\u0301']].foldl (Tracker.lineColumn Text.graphemes).next
          (Tracker.lineColumn Text.graphemes).start
        ≠ (Tracker.lineColumn Text.graphemes).next (Tracker.lineColumn Text.graphemes).start
            [['e'], ['\u0301']].flatten :=
  ⟨Text.lawful_unicode, Segmentation.standard_unicode, by decide +kernel⟩

end LazyGrammar

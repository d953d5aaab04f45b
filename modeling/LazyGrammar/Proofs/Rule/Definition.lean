import LazyGrammar.Proofs.Rule.Built

/-!
# LazyGrammar.Proofs.Rule.Definition

**A declared rule is defined once or not at all.** What has been done to declared rules is kept
in a log, and a grammar is looked at together with the log of how it came about (`History`). The
log alone tells which rules are copies of one declared rule, and whether a definition will be
taken (`History.tracks`).

Design points:

* A definition is put into the cell first, and only then is it found out that there was one
  already. `offer` does it in this order and gives the grammar that is left in either case; that
  nothing has been stored is for a proof to say (`offer_eq`).
* A definition that is refused is dropped, so what it alone kept is released. That is the last
  thing an offer does.
* A copy under a name is one more node with the same form. So the copies of a declared rule are
  the rules that refer to its cell, and a cell stands behind one declared rule only
  (`Tracks.apart`).
* Everything that is not about declared rules may happen in between: suppliers run during a
  parse, recursive rules are built and released, and other rules are made (`SameSlots`).
-/

namespace LazyGrammar

variable {τ α σ : Type}

/-! ### Logs -/

/-- What is done to declared rules and their copies. -/
inductive Deed
  /-- A rule was declared. -/
  | declared (made : Rule)
  /-- A rule was copied under a name. -/
  | labelled (rule made : Rule)
  /-- A rule was offered a definition, with this answer. -/
  | offered (rule definition : Rule) (answer : Except Fault Unit)

/-- Whether a definition was taken. -/
def Deed.isTaken : Deed → Bool
  | .offered _ _ (.ok _) => true
  | _ => false

/-- What was done, the latest first. -/
abbrev Log := List Deed

namespace Log

/-- The declared rule that a rule is, or that it is a copy of. -/
def origin : Log → Rule → Option Rule
  | [], _ => none
  | .declared made :: log, r => if r = made then some made else origin log r
  | .labelled rule made :: log, r => if r = made then origin log rule else origin log r
  | .offered .. :: log, r => origin log r

/-- A definition was taken by a declared rule or one of its copies. -/
def Defined (log : Log) (r definition : Rule) : Prop :=
  ∃ q, .offered q definition (.ok ()) ∈ log ∧ log.origin q = log.origin r

/-- A declared rule, or a copy of one, none of whose copies has taken a definition. -/
structure Undefined (log : Log) (r : Rule) : Prop where
  declared : (log.origin r).isSome
  undefined : ∀ definition, ¬ log.Defined r definition

theorem mem_of_mem_cons {deed : Deed} {log : Log} {r definition : Rule}
    (hdeed : deed.isTaken = false)
    (h : .offered r definition (.ok ()) ∈ (deed :: log : Log)) :
    .offered r definition (.ok ()) ∈ log := by
  rcases List.mem_cons.1 h with rfl | h
  · cases hdeed
  · exact h

end Log

/-! ### Offers -/

namespace Grammar

variable {g g' : Grammar τ α σ} {r q : Rule} {node : Node τ α} {info : RuleInfo}
  {form : Form τ α} {cell : CellId} {content : Cell σ} {held : List Rule}

/-- A cell may be given the content that it has. -/
theorem setCell_self (h : g.cells[cell]? = some content) : g.setCell cell content = g := by
  obtain ⟨hlt, rfl⟩ := Array.getElem?_eq_some_iff.1 h
  rw [setCell, Array.setIfInBounds_def, dif_pos hlt, Array.set_getElem_self]

theorem cells_setCell (h : g.cells[cell]? = some content) (content' : Cell σ) :
    (g.setCell cell content').cells[cell]? = some content' := by
  rw [setCell, Array.getElem?_setIfInBounds, if_pos rfl,
    if_pos (Array.getElem?_eq_some_iff.1 h).1]

theorem cells_setCell_of_ne {other : CellId} (h : other ≠ cell) (content : Cell σ) :
    (g.setCell cell content).cells[other]? = g.cells[other]? := by
  rw [setCell, Array.getElem?_setIfInBounds, if_neg h.symm]

/-- An offer does what a definition does. If it is refused, nothing is stored, and the definition
is dropped. -/
theorem offer_eq (g : Grammar τ α σ) (held : List Rule) (rule definition : Rule) :
    g.offer held rule definition =
      match g.define rule definition with
      | .ok g' => (.ok (), g')
      | .error f => (.error f, g.release held) := by
  unfold offer define
  cases g.form? rule with
  | none => rfl
  | some form =>
      cases form with
      | reference cell weak =>
          dsimp only
          cases hcell : g.cells[cell]? with
          | none => rfl
          | some content =>
              match content, hcell with
              | .declared none, _ => rfl
              | .declared (some _), hcell | .recursive _, hcell =>
                  -- what was in the cell is put back
                  exact congrArg (fun g' => (_, g'.release held)) (setCell_self hcell)
              | .unfinished, _ | .released, _ | .deferred _, _ | .computing, _ | .supplied _, _
              | .spoiled, _ => rfl
      | _ => rfl

/-- Of whatever is refused the definition is dropped, and that is all. -/
theorem offer_error {definition : Rule} (hoffer : (g.offer held r definition).1 ≠ .ok ()) :
    ∃ f, g.offer held r definition = (.error f, g.release held) := by
  cases hdefine : g.define r definition with
  | ok g' =>
      rw [offer_eq, hdefine] at hoffer
      exact absurd rfl hoffer
  | error f => exact ⟨f, by rw [offer_eq, hdefine]⟩

/-! ### Slots -/

/-- The cell that a form refers to, if a declared rule stands behind it. -/
def formSlot? (g : Grammar τ α σ) : Form τ α → Option CellId
  | .reference cell _ =>
    match g.cells[cell]? with
    | some (.declared _) => some cell
    | _ => none
  | _ => none

/-- The cell of the declared rule that a rule refers to, if it refers to one. -/
def slot? (g : Grammar τ α σ) (r : Rule) : Option CellId := (g.form? r).bind g.formSlot?

theorem formSlot?_eq_some_iff : g.formSlot? form = some cell ↔
    ∃ weak definition, form = .reference cell weak ∧
      g.cells[cell]? = some (.declared definition) := by
  constructor
  · intro h
    unfold formSlot? at h
    split at h
    · split at h
      · next hcell =>
        cases h
        exact ⟨_, _, rfl, hcell⟩
      · cases h
    · cases h
  · rintro ⟨weak, definition, rfl, hcell⟩
    simp only [formSlot?, hcell]

theorem slot?_eq_some_iff : g.slot? r = some cell ↔
    ∃ info weak definition, g.node? r = some ⟨info, .reference cell weak⟩ ∧
      g.cells[cell]? = some (.declared definition) := by
  constructor
  · intro h
    obtain ⟨form, hform, hslot⟩ := Option.bind_eq_some_iff.1 h
    obtain ⟨⟨info, _⟩, hnode, rfl⟩ := Option.map_eq_some_iff.1 hform
    obtain ⟨weak, definition, rfl, hcell⟩ := formSlot?_eq_some_iff.1 hslot
    exact ⟨info, weak, definition, hnode, hcell⟩
  · rintro ⟨info, weak, definition, hnode, hcell⟩
    rw [slot?, form?, hnode]
    exact formSlot?_eq_some_iff.2 ⟨weak, definition, rfl, hcell⟩

theorem has_of_slot? (h : g.slot? r = some cell) : g.Has r := by
  obtain ⟨info, weak, -, hnode, -⟩ := slot?_eq_some_iff.1 h
  exact ⟨_, hnode⟩

/-- A new rule has the slot of its form, and no other rule gets a different one. -/
theorem slot?_place (g : Grammar τ α σ) (info : RuleInfo) (form : Form τ α) (r : Rule) :
    (after (place info form) g).slot? r =
      if r.node = g.nodes.size then g.formSlot? form else g.slot? r := by
  rw [slot?, form?, node?_place]
  split <;> rfl

/-- A declared rule takes a definition if it has none. -/
theorem offer_of_slot? {definition? : Option Rule} (hslot : g.slot? r = some cell)
    (hcell : g.cells[cell]? = some (.declared definition?)) (held : List Rule)
    (definition : Rule) : g.offer held r definition =
      match definition? with
      | none => (.ok (), g.setCell cell (.declared (some definition)))
      | some _ => (.error .definedTwice, g.release held) := by
  obtain ⟨info, weak, -, hnode, -⟩ := slot?_eq_some_iff.1 hslot
  rw [offer_eq, define, form?, hnode]
  simp only [Option.map_some, hcell]
  cases definition? <;> rfl

/-- Nothing else takes one. -/
theorem offer_of_slot?_eq_none (hslot : g.slot? r = none) (held : List Rule)
    (definition : Rule) : ∃ f, g.offer held r definition = (.error f, g.release held) := by
  cases hdefine : g.define r definition with
  | error f => exact ⟨f, by rw [offer_eq, hdefine]⟩
  | ok g' =>
      obtain ⟨info, cell, weak, hnode, hcell, -⟩ := of_define hdefine
      cases hslot.symm.trans (slot?_eq_some_iff.2 ⟨info, weak, none, hnode, hcell⟩)

/-! ### Slots of declared rules -/

theorem cells_declare (g : Grammar τ α σ) (cell : CellId) : (after declare g).cells[cell]? =
    if cell = g.cells.size then some (.declared none) else g.cells[cell]? :=
  Array.getElem?_push

/-- The cells that rules refer to are not the last one, which a declared rule gets. -/
theorem slot?_ne (hg : g.Consistent) (r : Rule) : g.slot? r ≠ some g.cells.size := by
  intro heq
  obtain ⟨_, _, _, hnode, -⟩ := slot?_eq_some_iff.1 heq
  exact Nat.lt_irrefl _ (hg.cell hnode)

/-- A declared rule refers to a cell of its own. -/
theorem slot?_declare_self (g : Grammar τ α σ) :
    (after declare g).slot? ⟨g.nodes.size⟩ = some g.cells.size :=
  slot?_eq_some_iff.2 ⟨_, false, none, node?_place_self .., by rw [cells_declare, if_pos rfl]⟩

/-- All other rules refer to the cells from before. -/
theorem slot?_declare (hg : g.Consistent) (hr : r ≠ ⟨g.nodes.size⟩) :
    (after declare g).slot? r = g.slot? r := by
  have hnode : (after declare g).node? r = g.node? r :=
    (node?_place _ _ _ r).trans (if_neg fun heq => hr (congrArg Rule.mk heq))
  refine Option.ext fun c => ?_
  rw [slot?_eq_some_iff, slot?_eq_some_iff, hnode]
  refine exists_congr fun info => exists_congr fun weak => exists_congr fun d =>
    and_congr_right fun hreference => ?_
  rw [cells_declare, if_neg (Nat.ne_of_lt (hg.cell hreference))]

theorem labelled_made (hnode : g.node? r = some node) (label : String) :
    ((labelled r label).run g).1 = ⟨g.nodes.size⟩ := by
  simp only [labelled, StateT.run_bind, StateT.run_get, pure_bind, hnode]
  rfl

/-- A copy under a name refers to the cell of the rule that is copied. -/
theorem slot?_labelled_self (hnode : g.node? r = some node) (label : String) :
    (after (labelled r label) g).slot? ⟨g.nodes.size⟩ = g.slot? r := by
  rw [after_labelled hnode, slot?_place, if_pos rfl, slot?, form?, hnode]
  rfl

theorem slot?_labelled (hnode : g.node? r = some node) (label : String)
    (hq : q ≠ ⟨g.nodes.size⟩) : (after (labelled r label) g).slot? q = g.slot? q := by
  rw [after_labelled hnode, slot?_place, if_neg fun heq => hq (congrArg Rule.mk heq)]

/-- A definition changes no slot. -/
theorem slot?_setCell {old new : Option Rule} (hcell : g.cells[cell]? = some (.declared old))
    (r : Rule) : (g.setCell cell (.declared new)).slot? r = g.slot? r := by
  refine Option.ext fun c => ?_
  rw [slot?_eq_some_iff, slot?_eq_some_iff, node?_setCell]
  refine exists_congr fun info => exists_congr fun weak => ?_
  by_cases hc : c = cell
  · subst hc
    rw [cells_setCell hcell, hcell]
    constructor
    · rintro ⟨_, hnode, -⟩
      exact ⟨old, hnode, rfl⟩
    · rintro ⟨_, hnode, -⟩
      exact ⟨new, hnode, rfl⟩
  · rw [cells_setCell_of_ne hc]

/-! ### Operations of other kinds -/

/-- The same rules refer to the same declared rules, with the same definitions. -/
structure SameSlots (g g' : Grammar τ α σ) : Prop where
  slot : ∀ r, g'.slot? r = g.slot? r
  cell : ∀ {cell : CellId} {definition}, g'.cells[cell]? = some (.declared definition) ↔
    g.cells[cell]? = some (.declared definition)

namespace SameSlots

variable {g'' : Grammar τ α σ} {old : Cell σ}

theorem trans (h : g.SameSlots g') (h' : g'.SameSlots g'') : g.SameSlots g'' :=
  ⟨fun r => (h'.slot r).trans (h.slot r), h'.cell.trans h.cell⟩

/-- Cells may change that are not behind declared rules. -/
theorem of_cells (hnodes : g'.nodes = g.nodes)
    (hcell : ∀ {cell : CellId} {definition}, g'.cells[cell]? = some (.declared definition) ↔
      g.cells[cell]? = some (.declared definition)) : g.SameSlots g' := by
  refine ⟨fun r => Option.ext fun cell => ?_, hcell⟩
  simp only [slot?_eq_some_iff, node?, hnodes, hcell]

theorem takeInfo (g : Grammar τ α σ) (kind : RuleKind) :
    g.SameSlots (after (Grammar.takeInfo kind) g) := of_cells rfl Iff.rfl

/-- A rule may be made that does not refer to a declared one. -/
theorem place (info : RuleInfo) (hform : g.formSlot? form = none) :
    g.SameSlots (after (Grammar.place info form) g) := by
  refine ⟨fun r => ?_, Iff.rfl⟩
  rw [slot?_place]
  split
  · next hnew =>
    have hnone : g.node? r = none := by
      rw [node?, hnew]
      exact Array.getElem?_size
    rw [hform, slot?, form?, hnone]
    rfl
  · rfl

theorem make (g : Grammar τ α σ) (kind : RuleKind)
    (hform : ∀ cell weak, form ≠ .reference cell weak) :
    g.SameSlots (after (Grammar.make kind form) g) := by
  refine (takeInfo g kind).trans (place _ ?_)
  cases form with
  | reference cell weak => exact absurd rfl (hform cell weak)
  | _ => rfl

theorem addCell (g : Grammar τ α σ) (hcontent : ∀ d, content ≠ .declared d) :
    g.SameSlots (after (Grammar.addCell content) g) := by
  refine of_cells rfl fun {cell definition} => ?_
  have hpush : (after (Grammar.addCell content) g).cells = g.cells.push content := rfl
  rw [hpush, Array.getElem?_push]
  split
  · next hlast =>
    rw [hlast, Array.getElem?_size]
    exact ⟨fun h => absurd (Option.some.inj h) (hcontent _), nofun⟩
  · exact Iff.rfl

theorem reference (g : Grammar τ α σ) (kind : RuleKind) (weak : Bool)
    (hcontent : ∀ d, content ≠ .declared d) :
    g.SameSlots (after (do
      let info ← Grammar.takeInfo kind
      let cell ← Grammar.addCell content
      Grammar.place info (.reference cell weak)) g) := by
  refine ((takeInfo g kind).trans (addCell _ hcontent)).trans (place _ ?_)
  cases hslot : formSlot? (after (Grammar.addCell content) (after (Grammar.takeInfo kind) g))
      (.reference g.cells.size weak : Form τ α) with
  | none => rfl
  | some cell =>
      -- the new cell is the last one
      obtain ⟨_, d, hform, hcell⟩ := formSlot?_eq_some_iff.1 hslot
      cases hform
      have hlast : (g.cells.push content)[g.cells.size]? = some (.declared d) := hcell
      rw [Array.getElem?_push_size] at hlast
      exact absurd (Option.some.inj hlast) (hcontent d)

theorem setCell (hcell : g.cells[cell]? = some old) (hold : ∀ d, old ≠ .declared d)
    (hcontent : ∀ d, content ≠ .declared d) : g.SameSlots (g.setCell cell content) := by
  refine of_cells rfl fun {cell' definition} => ?_
  by_cases hsame : cell' = cell
  · subst hsame
    rw [cells_setCell hcell, hcell]
    exact ⟨fun h => absurd (Option.some.inj h) (hcontent _),
      fun h => absurd (Option.some.inj h) (hold _)⟩
  · rw [cells_setCell_of_ne hsame]

theorem release (g : Grammar τ α σ) (roots : List Rule) : g.SameSlots (g.release roots) := by
  refine of_cells (release_nodes ..) fun {cell definition} => ?_
  rcases g.cell_release roots cell with hsame | ⟨hreleased, body, hbody⟩
  · rw [hsame]
  · rw [hreleased, hbody]
    exact ⟨nofun, nofun⟩

end SameSlots

/-- An operation that neither declares a rule nor copies nor defines one. -/
structure Unrelated (g g' : Grammar τ α σ) : Prop where
  change : g.Change g'
  declare : g' ≠ after declare g
  labelled : ∀ r label, g.Usable r → g' ≠ after (labelled r label) g
  define : ∀ r definition, g.Usable definition → g.define r definition ≠ .ok g'

/-- **Operations of other kinds leave declared rules alone.** -/
theorem Unrelated.sameSlots (h : g.Unrelated g') : g.SameSlots g' := by
  obtain ⟨hchange, hdeclare, hlabelled, hdefine⟩ := h
  cases hchange with
  | make hform _ =>
      refine .make g _ fun cell weak heq => ?_
      subst heq
      cases hform
  | repetition _ =>
      refine (((SameSlots.make g _ ?_).trans (.make _ _ ?_)).trans (.make _ _ ?_)).trans
        (.make _ _ ?_)
      all_goals nofun
  | labelled hr => exact absurd rfl (hlabelled _ _ hr)
  | declare => exact absurd rfl hdeclare
  | deferred => exact .reference g _ _ nofun
  | openRecursive => exact .reference g _ _ nofun
  | @closeRecursive opening body _ hcell _ =>
      have hset : g.SameSlots (g.setCell opening.cell (.recursive body)) :=
        .setCell hcell nofun nofun
      exact hset.trans (.place _ (by rw [formSlot?, cells_setCell hcell]))
  | define hdefinition hok => exact absurd hok (hdefine _ _ hdefinition)
  | supplying hcell => exact .setCell hcell nofun nofun
  | supplied hcell _ => exact .setCell hcell nofun nofun
  | spoiled hcell => exact .setCell hcell nofun nofun
  | release roots => exact .release g roots

/-- To make a rule of a plain form is one of these operations. -/
theorem unrelated_make (kind : RuleKind) (hform : form.isPlain = true)
    (hparts : ∀ r ∈ form.parts, g.Usable r) : g.Unrelated (after (make kind form) g) := by
  have hnextId : (after (make kind form) g).nextId = g.nextId + 1 := rfl
  refine ⟨.make hform hparts, fun heq => ?_, fun r label hr heq => ?_, fun r d _ hdefine => ?_⟩
  · have hsize : g.cells.size = (g.cells.push (.declared none)).size :=
      congrArg (fun g => g.cells.size) heq
    rw [Array.size_push] at hsize
    exact Nat.succ_ne_self _ hsize.symm
  · obtain ⟨node, hnode, -⟩ := hr
    rw [heq, after_labelled hnode] at hnextId
    exact Nat.succ_ne_self _ hnextId.symm
  · -- a definition takes no identity
    obtain ⟨_, cell, _, -, -, heq⟩ := of_define hdefine
    have hsame : (after (make kind form) g).nextId = g.nextId := congrArg (fun g => g.nextId) heq
    exact Nat.succ_ne_self _ (hnextId.symm.trans hsame)

/-! ### Histories -/

/-- A grammar that operations have built, and what they did to declared rules. Every operation of
another kind may come in between. -/
inductive History : Grammar τ α σ → Log → Prop
  | start : History empty []
  | declare {g : Grammar τ α σ} {log : Log} (before : History g log) :
      History (after declare g) (.declared (declare.run g).1 :: log)
  | labelled {g : Grammar τ α σ} {log : Log} {r : Rule} (before : History g log)
      (hr : g.Usable r) (label : String) :
      History (after (labelled r label) g) (.labelled r ((labelled r label).run g).1 :: log)
  | offer {g : Grammar τ α σ} {log : Log} {definition : Rule} (before : History g log)
      (held : List Rule) (r : Rule) (hdefinition : g.Usable definition) :
      History (g.offer held r definition).2
        (.offered r definition (g.offer held r definition).1 :: log)
  | other {g g' : Grammar τ α σ} {log : Log} (before : History g log) (h : g.Unrelated g') :
      History g' log

/-- The log of a grammar tells what its cells are like: rules have the same origin where they
refer to the same declared rule, and its definition is the one that was taken. -/
structure Tracks (log : Log) (g : Grammar τ α σ) : Prop where
  consistent : g.Consistent
  none_iff : ∀ r, g.slot? r = none ↔ log.origin r = none
  apart : ∀ r q, g.slot? r = g.slot? q ↔ log.origin r = log.origin q
  root : ∀ {r declared}, log.origin r = some declared → log.origin declared ≠ none
  taken : ∀ {r definition}, .offered r definition (.ok ()) ∈ log → log.origin r ≠ none
  content : ∀ {r cell definition?}, g.slot? r = some cell →
    g.cells[cell]? = some (.declared definition?) →
      ∀ definition, definition? = some definition ↔ log.Defined r definition

namespace Tracks

variable {log : Log} {definition : Rule}

theorem exists_slot (h : Tracks log g) (hr : log.origin r ≠ none) :
    ∃ cell definition?, g.slot? r = some cell ∧
      g.cells[cell]? = some (.declared definition?) := by
  obtain ⟨cell, hslot⟩ := Option.ne_none_iff_exists'.1 (mt (h.none_iff r).1 hr)
  obtain ⟨_, _, definition?, -, hcell⟩ := slot?_eq_some_iff.1 hslot
  exact ⟨cell, definition?, hslot, hcell⟩

/-- A rule with an origin is there, so it is not the next one to be made. -/
theorem node_ne (h : Tracks log g) (hr : log.origin r ≠ none) : r ≠ ⟨g.nodes.size⟩ := by
  obtain ⟨cell, -, hslot, -⟩ := h.exists_slot hr
  obtain ⟨node, hnode⟩ := has_of_slot? hslot
  have hlt : r.node < g.nodes.size := (Array.getElem?_eq_some_iff.1 hnode).1
  rintro rfl
  exact Nat.lt_irrefl _ hlt

theorem start : Tracks [] (empty : Grammar τ α σ) where
  consistent := Built.consistent .refl
  none_iff _ := ⟨fun _ => rfl, fun _ => rfl⟩
  apart _ _ := ⟨fun _ => rfl, fun _ => rfl⟩
  root := nofun
  taken := nofun
  content h := nomatch h

/-- Nothing that concerns the log has changed. -/
theorem of_sameSlots (h : Tracks log g) (hg' : g'.Consistent) (hsame : g.SameSlots g') :
    Tracks log g' where
  consistent := hg'
  none_iff r := by rw [hsame.slot, h.none_iff]
  apart r q := by rw [hsame.slot, hsame.slot, h.apart]
  root := h.root
  taken := h.taken
  content hslot hcell := h.content (hsame.slot _ ▸ hslot) (hsame.cell.1 hcell)

section NewRule

variable {deed : Deed}
  (hold : ∀ q, q ≠ ⟨g.nodes.size⟩ → Log.origin (deed :: log) q = log.origin q)

include hold

/-- The declared rules from before are still there when a new rule has been made. -/
theorem root_cons (h : Tracks log g) {declared : Rule} (hr : log.origin r = some declared) :
    Log.origin (deed :: log) declared ≠ none := by
  rw [hold _ (h.node_ne (h.root hr))]
  exact h.root hr

theorem taken_cons (h : Tracks log g) (hdeed : deed.isTaken = false)
    (hmem : .offered r definition (.ok ()) ∈ (deed :: log : Log)) :
    Log.origin (deed :: log) r ≠ none := by
  have hmem := Log.mem_of_mem_cons hdeed hmem
  rw [hold r (h.node_ne (h.taken hmem))]
  exact h.taken hmem

/-- What was taken before a new rule was made was taken by older rules. -/
theorem defined_cons_iff (h : Tracks log g) {r₀ : Rule}
    (hr : Log.origin (deed :: log) r = log.origin r₀) (hdeed : deed.isTaken = false) :
    Log.Defined (deed :: log) r definition ↔ log.Defined r₀ definition := by
  constructor
  · rintro ⟨q, hmem, horigin⟩
    have hmem := Log.mem_of_mem_cons hdeed hmem
    rw [hr, hold q (h.node_ne (h.taken hmem))] at horigin
    exact ⟨q, hmem, horigin⟩
  · rintro ⟨q, hmem, horigin⟩
    refine ⟨q, List.mem_cons_of_mem _ hmem, ?_⟩
    rw [hr, hold q (h.node_ne (h.taken hmem)), horigin]

end NewRule

/-- A declared rule has a cell for itself. -/
theorem declare (h : Tracks log g) :
    Tracks (.declared (Grammar.declare.run g).1 :: log) (after Grammar.declare g) := by
  have hold : ∀ r, r ≠ ⟨g.nodes.size⟩ →
      Log.origin (.declared (Grammar.declare.run g).1 :: log) r = log.origin r :=
    fun r hr => if_neg hr
  have hself : Log.origin (.declared (Grammar.declare.run g).1 :: log) ⟨g.nodes.size⟩
      = some ⟨g.nodes.size⟩ := if_pos rfl
  have hslot : ∀ {r}, r ≠ ⟨g.nodes.size⟩ → (after Grammar.declare g).slot? r = g.slot? r :=
    slot?_declare h.consistent
  have hne := slot?_ne h.consistent
  have hroot : ∀ r, log.origin r ≠ some ⟨g.nodes.size⟩ := fun r heq => h.node_ne (h.root heq) rfl
  refine ⟨Change.declare.consistent h.consistent, fun r => ?_, fun r q => ?_, ?_,
    h.taken_cons hold rfl, ?_⟩
  · by_cases hr : r = ⟨g.nodes.size⟩
    · subst hr
      rw [slot?_declare_self, hself]
      exact ⟨nofun, nofun⟩
    · rw [hslot hr, hold r hr, h.none_iff]
  · by_cases hr : r = ⟨g.nodes.size⟩ <;> by_cases hq : q = ⟨g.nodes.size⟩
    · subst hr hq
      exact ⟨fun _ => rfl, fun _ => rfl⟩
    · subst hr
      rw [slot?_declare_self, hself, hslot hq, hold q hq]
      exact ⟨fun heq => absurd heq.symm (hne q), fun heq => absurd heq.symm (hroot q)⟩
    · subst hq
      rw [slot?_declare_self, hself, hslot hr, hold r hr]
      exact ⟨fun heq => absurd heq (hne r), fun heq => absurd heq (hroot r)⟩
    · rw [hslot hr, hold r hr, hslot hq, hold q hq, h.apart]
  · intro r declared hdeclared
    by_cases hr : r = ⟨g.nodes.size⟩
    · subst hr
      cases hself.symm.trans hdeclared
      rw [hself]
      exact nofun
    · exact h.root_cons hold ((hold r hr).symm.trans hdeclared)
  · intro r c definition? hr hc d
    rw [cells_declare] at hc
    by_cases hr' : r = ⟨g.nodes.size⟩
    · -- nothing was taken by the new rule
      subst hr'
      cases (slot?_declare_self g).symm.trans hr
      rw [if_pos rfl] at hc
      cases hc
      refine ⟨nofun, ?_⟩
      rintro ⟨q, hmem, heq⟩
      have hmem := Log.mem_of_mem_cons rfl hmem
      rw [hself, hold q (h.node_ne (h.taken hmem))] at heq
      exact absurd heq (hroot q)
    · rw [hslot hr'] at hr
      have hold' : c ≠ g.cells.size := by
        rintro rfl
        exact hne r hr
      rw [if_neg hold'] at hc
      rw [h.content hr hc d, h.defined_cons_iff hold (hold r hr') rfl]

/-- A copy has the cell of the rule that was copied. -/
theorem labelled (h : Tracks log g) (hr : g.Usable r) (label : String) :
    Tracks (.labelled r ((Grammar.labelled r label).run g).1 :: log)
      (after (Grammar.labelled r label) g) := by
  have hconsistent := h.consistent.labelled hr label
  obtain ⟨node, hnode, -⟩ := hr
  have hcells : (after (Grammar.labelled r label) g).cells = g.cells := by
    rw [after_labelled hnode]
    rfl
  rw [labelled_made hnode]
  -- the copy is like the rule that was copied, and all others are as before
  have hold : ∀ q, q ≠ ⟨g.nodes.size⟩ →
      Log.origin (.labelled r ⟨g.nodes.size⟩ :: log) q = log.origin q := fun q hq => if_neg hq
  have hlike : ∀ q, ∃ q₀, (after (Grammar.labelled r label) g).slot? q = g.slot? q₀ ∧
      Log.origin (.labelled r ⟨g.nodes.size⟩ :: log) q = log.origin q₀ := by
    intro q
    by_cases hq : q = ⟨g.nodes.size⟩
    · subst hq
      exact ⟨r, slot?_labelled_self hnode label, if_pos rfl⟩
    · exact ⟨q, slot?_labelled hnode label hq, hold q hq⟩
  refine ⟨hconsistent, fun q => ?_, fun q q' => ?_, ?_, h.taken_cons hold rfl, ?_⟩
  · obtain ⟨q₀, hslot, horigin⟩ := hlike q
    rw [hslot, horigin, h.none_iff]
  · obtain ⟨q₀, hslot, horigin⟩ := hlike q
    obtain ⟨q₁, hslot', horigin'⟩ := hlike q'
    rw [hslot, hslot', horigin, horigin', h.apart]
  · intro q declared hdeclared
    obtain ⟨q₀, -, horigin⟩ := hlike q
    exact h.root_cons hold (horigin.symm.trans hdeclared)
  · intro q c definition? hq hc d
    obtain ⟨q₀, hslot, horigin⟩ := hlike q
    rw [hslot] at hq
    rw [hcells] at hc
    rw [h.content hq hc d, h.defined_cons_iff hold horigin rfl]

/-- What is refused is dropped, and changes no declared rule. -/
theorem refused (h : Tracks log g) (held : List Rule) (r definition : Rule) (f : Fault) :
    Tracks (.offered r definition (.error f) :: log) (g.release held) := by
  have h := h.of_sameSlots ((Change.release held).consistent h.consistent) (.release g held)
  have hdefined : ∀ {q d}, Log.Defined (.offered r definition (.error f) :: log) q d ↔
      log.Defined q d := by
    intro q d
    constructor
    · rintro ⟨q', hmem, horigin⟩
      exact ⟨q', Log.mem_of_mem_cons rfl hmem, horigin⟩
    · rintro ⟨q', hmem, horigin⟩
      exact ⟨q', List.mem_cons_of_mem _ hmem, horigin⟩
  exact ⟨h.consistent, h.none_iff, h.apart, h.root,
    fun hmem => h.taken (Log.mem_of_mem_cons rfl hmem),
    fun hslot hcell d => (h.content hslot hcell d).trans hdefined.symm⟩

/-- What is taken is taken for all copies, and for no other rule. -/
theorem accepted (h : Tracks log g) (hdefinition : g.Usable definition)
    (hslot : g.slot? r = some cell) (hcell : g.cells[cell]? = some (.declared none)) :
    Tracks (.offered r definition (.ok ()) :: log)
      (g.setCell cell (.declared (some definition))) := by
  have hnow := cells_setCell hcell (.declared (some definition))
  have hconsistent : (g.setCell cell (.declared (some definition))).Consistent := by
    refine h.consistent.setCell _ fun d heq => ?_
    cases heq
    exact hdefinition
  refine ⟨hconsistent, fun q => ?_, fun q q' => ?_, h.root, ?_, ?_⟩
  · rw [slot?_setCell hcell]
    exact h.none_iff q
  · rw [slot?_setCell hcell, slot?_setCell hcell]
    exact h.apart q q'
  · intro q d hmem
    rcases List.mem_cons.1 hmem with heq | hmem
    · cases heq
      intro hnone
      cases hslot.symm.trans ((h.none_iff r).2 hnone)
    · exact h.taken hmem
  · intro q c definition? hq hc d
    rw [slot?_setCell hcell] at hq
    by_cases hsame : c = cell
    · subst hsame
      cases hnow.symm.trans hc
      constructor
      · rintro ⟨⟩
        exact ⟨r, List.mem_cons_self .., (h.apart r q).1 (hslot.trans hq.symm)⟩
      · rintro ⟨q', hmem, heq⟩
        rcases List.mem_cons.1 hmem with hnew | hmem
        · cases hnew
          rfl
        · -- nothing had been taken before
          cases (h.content hq hcell d).2 ⟨q', hmem, heq⟩
    · rw [cells_setCell_of_ne hsame] at hc
      rw [h.content hq hc d]
      constructor
      · rintro ⟨q', hmem, heq⟩
        exact ⟨q', List.mem_cons_of_mem _ hmem, heq⟩
      · rintro ⟨q', hmem, heq⟩
        rcases List.mem_cons.1 hmem with hnew | hmem
        · cases hnew
          have hslot' : some cell = some c := hslot.symm.trans (((h.apart r q).2 heq).trans hq)
          exact absurd (Option.some.inj hslot').symm hsame
        · exact ⟨q', hmem, heq⟩

theorem offer (h : Tracks log g) (held : List Rule) (r : Rule)
    (hdefinition : g.Usable definition) :
    Tracks (.offered r definition (g.offer held r definition).1 :: log)
      (g.offer held r definition).2 := by
  cases hslot : g.slot? r with
  | none =>
      obtain ⟨f, hoffer⟩ := offer_of_slot?_eq_none hslot held definition
      rw [hoffer]
      exact h.refused held r definition f
  | some cell =>
      obtain ⟨_, _, definition?, -, hcell⟩ := slot?_eq_some_iff.1 hslot
      rw [offer_of_slot? hslot hcell]
      cases definition? with
      | none => exact h.accepted hdefinition hslot hcell
      | some _ => exact h.refused held r definition .definedTwice

end Tracks

/-- **The log of a history tells what the cells of the grammar are like.** -/
theorem History.tracks {log : Log} (h : g.History log) : Tracks log g := by
  induction h with
  | start => exact .start
  | declare _ ih => exact ih.declare
  | labelled _ hr label ih => exact ih.labelled hr label
  | offer _ held r hdefinition ih => exact ih.offer held r hdefinition
  | other _ h ih => exact ih.of_sameSlots (h.change.consistent ih.consistent) h.sameSlots

/-- **Every grammar that operations build has a history**, and nothing else has one. -/
theorem built_iff_exists_history : g.Built ↔ ∃ log, g.History log := by
  constructor
  · intro h
    induction h with
    | refl => exact ⟨[], .start⟩
    | @tail g₁ g₂ _ hchange ih =>
        obtain ⟨log, hbefore⟩ := ih
        by_cases hdeclare : g₂ = after declare g₁
        · exact ⟨_, hdeclare ▸ hbefore.declare⟩
        by_cases hlabelled : ∃ r label, g₁.Usable r ∧ g₂ = after (labelled r label) g₁
        · obtain ⟨r, label, hr, rfl⟩ := hlabelled
          exact ⟨_, hbefore.labelled hr label⟩
        by_cases hdefine : ∃ r definition, g₁.Usable definition ∧ g₁.define r definition = .ok g₂
        · obtain ⟨r, definition, hdefinition, hok⟩ := hdefine
          have hoffer : (g₁.offer [] r definition).2 = g₂ := by rw [offer_eq, hok]
          exact ⟨_, hoffer ▸ hbefore.offer [] r hdefinition⟩
        exact ⟨log, hbefore.other ⟨hchange, hdeclare,
          fun r label hr heq => hlabelled ⟨r, label, hr, heq⟩,
          fun r definition hr heq => hdefine ⟨r, definition, hr, heq⟩⟩⟩
  · rintro ⟨log, h⟩
    induction h with
    | start => exact .refl
    | declare _ ih => exact ih.tail .declare
    | labelled _ hr label ih => exact ih.tail (.labelled hr)
    | @offer g log definition _ held r hdefinition ih =>
        cases hdefine : g.define r definition with
        | ok g' =>
            rw [offer_eq, hdefine]
            exact ih.tail (.define hdefinition hdefine)
        | error f =>
            rw [offer_eq, hdefine]
            exact ih.tail (.release held)
    | other _ h ih => exact ih.tail h.change

section Taken

variable {log : Log} {definition : Rule}

/-- What waits for a definition takes it. -/
theorem History.offer_ok_iff (h : g.History log) (held : List Rule) (r definition : Rule) :
    (g.offer held r definition).1 = .ok () ↔ log.Undefined r := by
  cases hslot : g.slot? r with
  | none =>
      obtain ⟨f, hoffer⟩ := offer_of_slot?_eq_none hslot held definition
      rw [hoffer]
      refine ⟨nofun, fun hundefined => ?_⟩
      have hdeclared := hundefined.declared
      rw [(h.tracks.none_iff r).1 hslot] at hdeclared
      cases hdeclared
  | some cell =>
      obtain ⟨_, _, definition?, -, hcell⟩ := slot?_eq_some_iff.1 hslot
      have hcontent := h.tracks.content hslot hcell
      rw [offer_of_slot? hslot hcell]
      cases definition? with
      | none =>
          have hdeclared : log.origin r ≠ none := mt (h.tracks.none_iff r).2 (hslot ▸ nofun)
          exact ⟨fun _ => ⟨Option.isSome_iff_ne_none.2 hdeclared,
            fun d hd => nomatch (hcontent d).2 hd⟩, fun _ => rfl⟩
      | some d =>
          exact ⟨nofun, fun hundefined => absurd ((hcontent d).1 rfl) (hundefined.undefined d)⟩

/-- Behind every copy of a rule that took a definition there is the definition. -/
theorem History.cell_of_defined (h : g.History log) (hdefined : log.Defined r definition) :
    ∃ info cell weak, g.node? r = some ⟨info, .reference cell weak⟩ ∧
      g.cells[cell]? = some (.declared (some definition)) := by
  obtain ⟨q, hmem, horigin⟩ := hdefined
  obtain ⟨cell, definition?, hslot, hcell⟩ := h.tracks.exists_slot (horigin ▸ h.tracks.taken hmem)
  obtain ⟨info, weak, -, hnode, -⟩ := slot?_eq_some_iff.1 hslot
  obtain rfl := (h.tracks.content hslot hcell definition).2 ⟨q, hmem, horigin⟩
  exact ⟨info, cell, weak, hnode, hcell⟩

end Taken

end Grammar

end LazyGrammar

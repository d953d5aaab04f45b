import LazyGrammar.Text.ClusterTable

/-!
# LazyGrammar.Text.Grapheme

**Extended grapheme clusters**: what a reader takes for one character. The rules
say between which neighbours a text has no boundary; everything else is a boundary.

Design points:

* The rules read three properties of a character, and these change from one version of
  Unicode to the next. They are a parameter (`ClusterData`), of which `unicode` is the
  instance with the tables of Unicode 17.
* A rule looks back further than one character in three cases (pictographs linked
  by a joiner, consonants bound by a linker, pairs of regional indicators). What
  matters of the characters so far is kept in a `Context` of fixed size, so a text
  is cut in one pass from left to right.
* No character is lost or moved: `flatten_graphemes`.
-/

namespace LazyGrammar.Text

/-! ### Classes of characters -/

/-- The class of a character in the boundary rules. -/
inductive BreakClass
  | carriageReturn
  | lineFeed
  | control
  | extending
  | joiner
  | regional
  | preceding
  | spacing
  | leadingJamo
  | vowelJamo
  | trailingJamo
  | openSyllable
  | closedSyllable
  | other
  deriving DecidableEq, Repr, Inhabited

/-- The part of a character in conjuncts, that is in consonants which are written as one. -/
inductive ConjunctClass
  | consonant
  | linker
  | extender
  | none
  deriving DecidableEq, Repr, Inhabited

/-- What the boundary rules read of a character. -/
structure ClusterData where
  breakClass : Char → BreakClass
  conjunct : Char → ConjunctClass
  pictographic : Char → Bool

/-! ### The properties in Unicode 17 -/

/-- The code points of each table, ready for look-up. -/
def controls : Ranges := .ofList ClusterTable.control
/-- Characters that extend the cluster before them. -/
def extenders : Ranges := .ofList ClusterTable.extending
/-- Characters that take the cluster after them. -/
def preceders : Ranges := .ofList ClusterTable.preceding
/-- Spacing marks. -/
def spacers : Ranges := .ofList ClusterTable.spacing
/-- Pictographs. -/
def pictographs : Ranges := .ofList ClusterTable.pictographic
/-- Consonants that can be bound into a conjunct. -/
def conjunctConsonants : Ranges := .ofList ClusterTable.conjunctConsonant
/-- Characters that bind consonants into a conjunct. -/
def conjunctLinkers : Ranges := .ofList ClusterTable.conjunctLinker
/-- Vowels that continue a syllable block. -/
def vowelJamos : Ranges := .ofList ClusterTable.vowelJamo

/-- The class of a character. A syllable block is open, that is without a final
consonant, exactly at every 28th place. -/
def breakClass (c : Char) : BreakClass :=
  let n := c.toNat
  if n == 0x0D then .carriageReturn
  else if n == 0x0A then .lineFeed
  else if 0x20 ≤ n && n < 0x7F then .other
  else if n == 0x200D then .joiner
  else if 0x1F1E6 ≤ n && n ≤ 0x1F1FF then .regional
  else if 0xAC00 ≤ n && n ≤ 0xD7A3 then
    if (n - 0xAC00) % 28 == 0 then .openSyllable else .closedSyllable
  else if (0x1100 ≤ n && n ≤ 0x115F) || (0xA960 ≤ n && n ≤ 0xA97C) then .leadingJamo
  else if (0x11A8 ≤ n && n ≤ 0x11FF) || (0xD7CB ≤ n && n ≤ 0xD7FB) then .trailingJamo
  else if vowelJamos.contains n then .vowelJamo
  else if controls.contains n then .control
  else if extenders.contains n then .extending
  else if spacers.contains n then .spacing
  else if preceders.contains n then .preceding
  else .other

/-- The part of a character in conjuncts. The zero width non-joiner extends a cluster and
ends a conjunct all the same. -/
def conjunctClass (c : Char) : ConjunctClass :=
  if conjunctConsonants.has c then .consonant
  else if conjunctLinkers.has c then .linker
  else if (breakClass c == .extending || breakClass c == .joiner) && c.toNat != 0x200C then
    .extender
  else .none

/-- The properties of characters in Unicode 17. -/
def unicode : ClusterData := ⟨breakClass, conjunctClass, pictographs.has⟩

/-! ### What is remembered of the characters so far -/

/-- How far a run "pictograph, extenders, joiner" has got. -/
inductive PictographRun
  | absent
  | pictograph
  | joined
  deriving DecidableEq, Repr, Inhabited

/-- How far a run "consonant, extenders and linkers" has got. -/
inductive ConjunctRun
  | absent
  | consonant
  | linked
  deriving DecidableEq, Repr, Inhabited

/-- What the rules need to know of the characters before a place. -/
structure Context where
  /-- The class of the last character. -/
  last : BreakClass
  linking : PictographRun
  binding : ConjunctRun
  /-- Whether an odd number of regional indicators stands just before the place. -/
  unpaired : Bool
  deriving DecidableEq, Repr, Inhabited

namespace Context

/-- Nothing but the last class. -/
def plain (last : BreakClass) : Context := ⟨last, .absent, .absent, false⟩

variable (data : ClusterData)

/-- The run of pictographs after one more character. -/
def nextPictographs (ctx : Context) (c : Char) : PictographRun :=
  if data.pictographic c then .pictograph
  else match ctx.linking, data.breakClass c with
    | .pictograph, .extending => .pictograph
    | .pictograph, .joiner => .joined
    | _, _ => .absent

/-- The run of consonants after one more character. -/
def nextConjunct (ctx : Context) (c : Char) : ConjunctRun :=
  match data.conjunct c with
  | .consonant => .consonant
  | .linker => if ctx.binding = .absent then .absent else .linked
  | .extender => ctx.binding
  | .none => .absent

/-- What is known after one more character. -/
def pass (ctx : Context) (c : Char) : Context :=
  ⟨data.breakClass c, ctx.nextPictographs data c, ctx.nextConjunct data c,
    data.breakClass c == .regional && !ctx.unpaired⟩

/-- What is known after the first character of a text. -/
def first (c : Char) : Context := (plain .control).pass data c

end Context

/-! ### The rules -/

/-- Whether a class is a control or a line end. -/
def BreakClass.isControl : BreakClass → Bool
  | .carriageReturn | .lineFeed | .control => true
  | _ => false

/-- Whether two neighbouring parts of a syllable stay together. -/
def syllableGoesOn : BreakClass → BreakClass → Bool
  | .leadingJamo, .leadingJamo | .leadingJamo, .vowelJamo
  | .leadingJamo, .openSyllable | .leadingJamo, .closedSyllable => true
  | .openSyllable, .vowelJamo | .openSyllable, .trailingJamo
  | .vowelJamo, .vowelJamo | .vowelJamo, .trailingJamo => true
  | .closedSyllable, .trailingJamo | .trailingJamo, .trailingJamo => true
  | _, _ => false

section Cutting

variable (data : ClusterData)

/-- Whether there is no boundary between what the context describes and the
character after it. -/
def joins (ctx : Context) (c : Char) : Bool :=
  let cls := data.breakClass c
  if ctx.last == .carriageReturn && cls == .lineFeed then true
  else if ctx.last.isControl || cls.isControl then false
  else syllableGoesOn ctx.last cls
    || cls == .extending || cls == .joiner || cls == .spacing
    || ctx.last == .preceding
    || (ctx.binding == .linked && data.conjunct c == .consonant)
    || (ctx.linking == .joined && data.pictographic c)
    || (ctx.unpaired && cls == .regional)

/-! ### Cutting a text -/

/-- The clusters of a text that goes on from a cluster begun with `begun`, which is
held in reverse. -/
def clustersFrom (ctx : Context) (begun : List Char) : List Char → List (List Char)
  | [] => [begun.reverse]
  | c :: rest =>
    if joins data ctx c then clustersFrom (ctx.pass data c) (c :: begun) rest
    else begun.reverse :: clustersFrom (ctx.pass data c) [c] rest

/-- The clusters that the rules cut a text into. -/
def ClusterData.graphemes : List Char → List (List Char)
  | [] => []
  | c :: rest => clustersFrom data (.first data c) [c] rest

theorem flatten_clustersFrom (ctx : Context) (begun rest : List Char) :
    (clustersFrom data ctx begun rest).flatten = begun.reverse ++ rest := by
  induction rest generalizing ctx begun with
  | nil => simp [clustersFrom]
  | cons c rest ih =>
    unfold clustersFrom
    split
    · rw [ih]; simp
    · rw [List.flatten_cons, ih]; simp

/-- The clusters of a text put together are the text. -/
theorem flatten_graphemes (text : List Char) : (data.graphemes text).flatten = text := by
  cases text with
  | nil => rfl
  | cons c rest => simp [ClusterData.graphemes, flatten_clustersFrom]

end Cutting

/-- The grapheme clusters of a text in Unicode 17. -/
def graphemes (text : List Char) : List (List Char) := unicode.graphemes text

end LazyGrammar.Text

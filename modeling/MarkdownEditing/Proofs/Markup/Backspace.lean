import Mathlib
import MarkdownEditing.Proofs.Markup.WalkBack

namespace MarkdownEditing

def Text.SplitsContent (t : Text) (pos : Nat) : Prop :=
  ∃ (a : Text) (c : Char) (b : Text), t = a ++ c :: b ∧ a.size < pos ∧ pos < a.size + c.utf8Size ∧
    isErasable c = false

namespace Text

variable {t : Text} {start pos : Nat}

theorem not_splitsContent_of_isBoundary (boundary : t.isBoundary pos = true) :
    ¬t.SplitsContent pos := by
  rintro ⟨a, c, b, parts, low, high, _⟩
  obtain ⟨x, y, split, size⟩ := isBoundary_iff.mp boundary
  rw [parts] at split
  rcases List.append_eq_append_iff.mp split with ⟨mid, rfl, rest⟩ | ⟨mid, rfl, _⟩
  · cases mid with
    | nil =>
      rw [List.append_nil] at size
      omega
    | cons d mid =>
      obtain ⟨rfl, _⟩ := List.cons.inj rest
      rw [size_append, size_cons] at size
      omega
  · rw [size_append] at low
    omega

theorem SplitsContent.not_all_erasable (splits : t.SplitsContent pos) (some_bytes : start < pos) :
    (t.touched start pos).all isErasable = false := by
  obtain ⟨a, c, b, parts, low, high, content⟩ := splits
  apply List.all_eq_false.mpr
  exact ⟨c, mem_touched.mpr ⟨a, b, parts, some_bytes, by omega, low⟩, by simp [content]⟩

theorem mem_slice {a b : Text} {c : Char} {stop : Nat} (ends : start < a.size + c.utf8Size)
    (before : a.size + c.utf8Size ≤ stop) : c ∈ (a ++ c :: b).slice start stop := by
  obtain ⟨n, rfl⟩ := Nat.exists_eq_add_of_le before
  have head : (a ++ [c]).size = a.size + c.utf8Size := by
    rw [size_append, size_cons, size_nil, Nat.add_zero]
  have whole : a ++ c :: b = (a ++ [c]) ++ b := by simp
  rw [slice, whole, ← head, takeBytes_append]
  by_cases inside : start ≤ a.size
  · rw [List.append_assoc, dropBytes_append_of_le _ inside]
    simp
  · obtain ⟨k, rfl⟩ := Nat.exists_eq_add_of_le (Nat.le_of_not_le inside)
    have kept : ¬c.utf8Size ≤ k := by omega
    rw [List.append_assoc, dropBytes_append, List.singleton_append, dropBytes, if_neg kept]
    exact List.mem_cons_self

end Text

variable {l : Line} {t before after : Text} {start pos : Nat}

/-- When the whole characters between two offsets on a line are erasable, everything there is, but
for a character that the later offset splits. -/
theorem Line.Lies.touched_iff (lies : l.Lies before after) (parts : t = before ++ l.text ++ after)
    (low : l.start ≤ start) (high : l.Reaches after pos)
    (whole : ∀ (u : Text) (c : Char) (v : Text), l.text = u ++ c :: v →
      start < l.start + (u.size + c.utf8Size) → l.start + (u.size + c.utf8Size) ≤ pos →
      isErasable c = true)
    (some_bytes : start < pos ∨ ¬t.SplitsContent pos) :
    (t.touched start pos).all isErasable = true ↔ ¬t.SplitsContent pos := by
  constructor
  · intro all splits
    rcases some_bytes with some_bytes | none_split
    · rw [splits.not_all_erasable some_bytes] at all
      cases all
    · exact none_split splits
  · intro none_split
    apply List.all_eq_true.mpr
    intro c member
    obtain ⟨a, b, here, _, ends, begins⟩ := Text.mem_touched.mp member
    rcases lies.at_of_touched parts here (by omega) high begins with ⟨u, v, text, size⟩ | rfl
    · by_cases fits : a.size + c.utf8Size ≤ pos
      · exact whole u c v text (by omega) (by omega)
      · cases content : isErasable c with
        | true => rfl
        | false => exact absurd ⟨a, c, b, here, begins, by omega, content⟩ none_split
    · decide

namespace Backspace

def frame? (s : EditState) (pos : Nat) : Option Frame :=
  (contextNode? s pos).bind fun node => (Frame.around node s.doc).getLast?

def spaceStop (f : Frame) : Nat := f.markerStop + if f.after = [] then 0 else 1

def pairStart (s : EditState) (pos : Nat) : Nat :=
  max (s.text.charsBefore pos 2) (s.doc.lineAt pos).start

/-- The caret splits a character, or it stands on a later line of a quote at the column at which
the content of the first line begins, and the two characters before it are not all white space and
markup. -/
def EatsContent (s : EditState) (pos : Nat) : Prop :=
  s.text.SplitsContent pos ∨
    ∃ f, frame? s pos = some f ∧ f.isQuote = true ∧
      f.container.start < (s.doc.lineAt pos).start ∧
      pos = (s.doc.lineAt pos).start + spaceStop f ∧
      (s.text.touched (pairStart s pos) pos).all isErasable = false

variable {s : EditState} {pos : Nat} {f : Frame}

theorem frame?_around (coherent : s.Coherent) (found : frame? s pos = some f) : f.Around s pos := by
  obtain ⟨node, context, last⟩ := Option.bind_eq_some_iff.mp found
  obtain ⟨node_inside, before⟩ := contextNode?_spec coherent context
  obtain ⟨q, enclosing, shown⟩ := Frame.mem_around (List.mem_of_getLast? last)
  obtain ⟨ancestor, is_node⟩ := List.mem_filter.mp enclosing
  exact ⟨q, node_inside.ancestor ancestor, is_node, shown,
    fun _ => Nat.le_trans (Place.start_le_of_ancestor node_inside ancestor) before⟩

theorem charsBefore_le (t : Text) (pos count : Nat) : t.charsBefore pos count ≤ t.floor pos := by
  have parts := congrArg Text.size
    (List.take_append_drop ((t.takeBytes pos).length - max count 1) (t.takeBytes pos))
  rw [Text.size_append] at parts
  unfold Text.floor Text.charsBefore
  dsimp only
  omega

theorem isBoundary_charsBefore (t : Text) (pos count : Nat) :
    t.isBoundary (t.charsBefore pos count) = true := by
  apply Text.isBoundary_iff.mpr
  refine ⟨_, (t.takeBytes pos).drop ((t.takeBytes pos).length - max count 1) ++ t.dropBytes pos,
    ?_, rfl⟩
  rw [← List.append_assoc, List.take_append_drop, Text.takeBytes_append_dropBytes]

theorem isBoundary_lineStart (coherent : s.Coherent) (inside : pos ≤ s.doc.size) :
    s.text.isBoundary (s.doc.lineAt pos).start = true := by
  obtain ⟨before, after, parts, lies, _⟩ := coherent.lies_lineAt inside
  rw [lies.start, parts, List.append_assoc]
  exact Text.isBoundary_left _ _

theorem isBoundary_pairStart (coherent : s.Coherent) (inside : pos ≤ s.doc.size) :
    s.text.isBoundary (pairStart s pos) = true := by
  rcases Nat.le_total (s.text.charsBefore pos 2) (s.doc.lineAt pos).start with order | order
  · rw [pairStart, Nat.max_eq_right order]
    exact isBoundary_lineStart coherent inside
  · rw [pairStart, Nat.max_eq_left order]
    exact isBoundary_charsBefore _ _ _

theorem pairStart_le (coherent : s.Coherent) (inside : pos ≤ s.doc.size) :
    pairStart s pos ≤ pos := by
  obtain ⟨_, _, _, _, reaches, _⟩ := coherent.lies_lineAt inside
  have low := reaches.1
  have first := charsBefore_le s.text pos 2
  have floor := s.text.floor_le pos
  unfold pairStart
  omega

theorem pairStart_lt (coherent : s.Coherent) (inside : pos ≤ s.doc.size)
    (splits : s.text.SplitsContent pos) : pairStart s pos < pos := by
  apply Nat.lt_of_le_of_ne (pairStart_le coherent inside)
  intro same
  have boundary := isBoundary_pairStart coherent inside
  rw [same] at boundary
  exact Text.not_splitsContent_of_isBoundary boundary splits

theorem on_spaceStop {lead glyphs tail : Text} (on : f.On l lead glyphs tail) :
    ∃ u v, l.text = u ++ v ∧ u.size = spaceStop f ∧ ∀ c ∈ u, isErasable c = true := by
  obtain ⟨n, spaces⟩ := on.spaces
  have all := on.markup_erasable
  have stop := on.stop
  cases n with
  | zero =>
    have none_after : f.after = [] := spaces
    refine ⟨lead ++ glyphs, tail, ?_, ?_, ?_⟩
    · rw [on.text, none_after, List.nil_append, List.append_assoc]
    · rw [spaceStop, Frame.markerStop, if_pos none_after, stop, none_after, Text.size_append]
      simp
    · intro c member
      rw [none_after, List.append_nil] at all
      exact all c member
  | succ n =>
    have after : f.after = ' ' :: Text.spaces n := spaces
    have one : ' '.utf8Size = 1 := rfl
    refine ⟨lead ++ (glyphs ++ [' ']), Text.spaces n ++ tail, ?_, ?_, ?_⟩
    · rw [on.text, after]
      simp
    · rw [spaceStop, Frame.markerStop, if_neg (by simp [after]), stop, after]
      simp only [Text.size_append, Text.size_cons, Text.size_nil, Text.size_spaces, one]
      omega
    · intro c member
      apply all c
      rw [after]
      simp only [List.mem_append, List.mem_cons, List.not_mem_nil, or_false] at member ⊢
      grind

/-- More than one space follows the markup of the innermost container: they are deleted from `start`
on. -/
def Surplus (s : EditState) (pos start : Nat) : Prop :=
  ∃ f, frame? s pos = some f ∧ spaceStop f < pos - (s.doc.lineAt pos).start ∧
    ((s.doc.lineAt pos).text.slice (spaceStop f) (pos - (s.doc.lineAt pos).start)).isBlank = true ∧
    start = (s.doc.lineAt pos).start + spaceStop f

structure Deletes (s : EditState) (pos : Nat) (c : Change) : Prop where
  erasable : (s.text.touched c.start c.stop).all isErasable = true ↔ ¬EatsContent s pos
  start : s.text.isBoundary c.start = true ∨ Surplus s pos c.start
  surplus : ∀ start, Surplus s pos start → c.start = start
  stop : c.stop = pos ∨ s.text.isBoundary c.stop = true

theorem eatsContent_iff (plain : ∀ f, frame? s pos = some f → f.isQuote = true →
      f.container.start < (s.doc.lineAt pos).start →
      pos ≠ (s.doc.lineAt pos).start + spaceStop f) :
    EatsContent s pos ↔ s.text.SplitsContent pos := by
  constructor
  · rintro (splits | ⟨f, found, quote, later, column, _⟩)
    · exact splits
    · exact absurd column (plain f found quote later)
  · exact Or.inl

theorem frame?_single {g : Frame} (found : frame? s pos = some f) (other : frame? s pos = some g) :
    g = f := by
  rw [found] at other
  exact (Option.some.inj other).symm

theorem not_quote_of_item (coherent : s.Coherent) (inside : pos ≤ s.doc.size)
    (found : frame? s pos = some f) (item : f.item.isSome = true) : f.isQuote = false := by
  rcases (frame?_around coherent found).cases coherent inside with ⟨_, no_quote, _⟩ | ⟨kind, _⟩
  · exact no_quote
  · rw [item] at kind
    simpa using kind.symm

theorem eatsContent_iff_of_item (coherent : s.Coherent) (inside : pos ≤ s.doc.size)
    (found : frame? s pos = some f) (item : f.item.isSome = true) :
    EatsContent s pos ↔ s.text.SplitsContent pos := by
  apply eatsContent_iff
  intro g other quote _
  rw [frame?_single found other, not_quote_of_item coherent inside found item] at quote
  cases quote

theorem deletes_surplus (coherent : s.Coherent) (inside : pos ≤ s.doc.size)
    (found : frame? s pos = some f) (column : spaceStop f < pos - (s.doc.lineAt pos).start)
    (blank : ((s.doc.lineAt pos).text.slice (spaceStop f)
      (pos - (s.doc.lineAt pos).start)).isBlank = true) :
    Deletes s pos (Change.delete ((s.doc.lineAt pos).start + spaceStop f) pos) := by
  obtain ⟨before, after, parts, lies, reaches, _⟩ := coherent.lies_lineAt inside
  have plain := @eatsContent_iff s pos fun g other _ _ => by
    rw [frame?_single found other]
    omega
  refine ⟨?_, Or.inr ⟨f, found, column, blank, rfl⟩, ?_, Or.inl rfl⟩
  · rw [plain]
    refine lies.touched_iff parts (Nat.le_add_right _ _) reaches ?_ (Or.inl ?_)
    · intro u c v text ends fits
      dsimp only [Change.delete] at ends fits
      have member : c ∈ (s.doc.lineAt pos).text.slice (spaceStop f)
          (pos - (s.doc.lineAt pos).start) := by
        rw [text]
        exact Text.mem_slice (by omega) (by omega)
      exact isErasable_of_isWhite (List.all_eq_true.mp blank c member)
    · dsimp only [Change.delete]
      omega
  · rintro start ⟨g, other, _, _, same⟩
    rw [same, frame?_single found other]
    rfl

theorem deletes_pair (coherent : s.Coherent) (inside : pos ≤ s.doc.size)
    (none_surplus : ∀ start, ¬Surplus s pos start)
    (plain : EatsContent s pos ↔ s.text.SplitsContent pos)
    (whole : ∀ (u : Text) (c : Char) (v : Text), (s.doc.lineAt pos).text = u ++ c :: v →
      (s.doc.lineAt pos).start + (u.size + c.utf8Size) ≤ pos → isErasable c = true) :
    Deletes s pos (Change.delete (pairStart s pos) pos) := by
  obtain ⟨before, after, parts, lies, reaches, _⟩ := coherent.lies_lineAt inside
  refine ⟨?_, Or.inl (isBoundary_pairStart coherent inside), ?_, Or.inl rfl⟩
  · rw [plain]
    refine lies.touched_iff parts (Nat.le_max_right _ _) reaches ?_ ?_
    · intro u c v text _ fits
      exact whole u c v text fits
    · by_cases splits : s.text.SplitsContent pos
      · exact Or.inl (pairStart_lt coherent inside splits)
      · exact Or.inr splits
  · intro start surplus
    exact absurd surplus (none_surplus start)

theorem deletes_own_line (coherent : s.Coherent) (inside : pos ≤ s.doc.size)
    (none_surplus : ∀ start, ¬Surplus s pos start)
    (plain : EatsContent s pos ↔ s.text.SplitsContent pos) {lead glyphs rest : Text}
    (on : f.On (s.doc.lineAt pos) lead glyphs rest)
    (column : pos - (s.doc.lineAt pos).start = spaceStop f) :
    Deletes s pos (Change.delete (pairStart s pos) pos) := by
  obtain ⟨_, _, _, _, reaches, _⟩ := coherent.lies_lineAt inside
  have low := reaches.1
  obtain ⟨u, v, text, size, erasable⟩ := on_spaceStop on
  apply deletes_pair coherent inside none_surplus plain
  intro a c b parts fits
  rw [text] at parts
  rcases List.append_eq_append_iff.mp parts with ⟨mid, rfl, _⟩ | ⟨mid, rfl, rest'⟩
  · rw [Text.size_append] at fits
    have positive := c.utf8Size_pos
    omega
  · cases mid with
    | nil =>
      rw [List.append_nil] at size
      have positive := c.utf8Size_pos
      omega
    | cons d mid =>
      obtain ⟨rfl, _⟩ := List.cons.inj rest'
      exact erasable c (by simp)

theorem blankMarker_deletes (coherent : s.Coherent) (inside : pos ≤ s.doc.size)
    (none_surplus : ∀ start, ¬Surplus s pos start)
    (plain : EatsContent s pos ↔ s.text.SplitsContent pos) {lead glyphs rest : Text}
    (on : f.On (s.doc.lineAt pos) lead glyphs rest)
    (column : pos - (s.doc.lineAt pos).start = spaceStop f) (insert : Text) :
    Deletes s pos ⟨(s.doc.lineAt pos).start + f.start, (s.doc.lineAt pos).start + f.stop, insert⟩ := by
  obtain ⟨before, after, parts, lies, reaches, _⟩ := coherent.lies_lineAt inside
  have text : (s.doc.lineAt pos).text = lead ++ ((glyphs ++ f.after) ++ rest) := by
    rw [on.text]
    simp only [List.append_assoc]
  have harmless := lies.harmless_of_erasable parts text
    (fun c member => on.markup_erasable c (List.mem_append_right _ member)) insert
  rw [Text.size_append, ← on.stop, ← on.start] at harmless
  obtain ⟨u, v, head, size, _⟩ := on_spaceStop on
  have boundary : s.text.isBoundary pos = true := by
    have low := reaches.1
    have here : pos = (before ++ u).size := by
      rw [Text.size_append, ← lies.start]
      omega
    rw [here, parts, head]
    simp only [List.append_assoc]
    rw [← List.append_assoc]
    exact Text.isBoundary_left _ _
  refine ⟨?_, Or.inl harmless.start, ?_, Or.inr harmless.stop⟩
  · rw [plain]
    exact iff_of_true harmless.erasable (Text.not_splitsContent_of_isBoundary boundary)
  · intro start surplus
    exact absurd surplus (none_surplus start)

theorem isBlank_slice {t : Text} {stop : Nat} (blank : (t.takeBytes stop).isBlank = true)
    (start : Nat) : (t.slice start stop).isBlank = true := by
  have parts := Text.takeBytes_append_dropBytes (t.takeBytes stop) start
  rw [← parts, Text.isBlank, List.all_append, Bool.and_eq_true] at blank
  exact blank.2

theorem not_isBlank_marker {lead glyphs rest : Text} (on : f.On l lead glyphs rest) :
    (l.text.slice f.start f.stop).isBlank = false := by
  have text : l.text = lead ++ (glyphs ++ f.after) ++ rest := on.text_eq.1
  obtain ⟨c, member, visible⟩ := on.visible
  rw [on.start, on.stop, ← Text.size_append, text, Text.slice_middle]
  apply List.all_eq_false.mpr
  exact ⟨c, List.mem_append_left _ member, by simp [visible]⟩

theorem spaceStop_le (width : f.after.size ≤ f.stop) : spaceStop f ≤ f.stop := by
  unfold spaceStop Frame.markerStop
  split
  · omega
  · rename_i some_space
    have positive := Text.size_pos some_space
    omega

/-- Directly after the markup of the innermost container nothing is surplus. -/
theorem not_surplus_of_column (found : frame? s pos = some f)
    (column : pos - (s.doc.lineAt pos).start = spaceStop f) (start : Nat) :
    ¬Surplus s pos start := by
  rintro ⟨g, other, beyond, _⟩
  rw [frame?_single found other] at beyond
  omega

theorem deletes_quote (coherent : s.Coherent) (inside : pos ≤ s.doc.size)
    (found : frame? s pos = some f) (quote : f.isQuote = true)
    (column : pos - (s.doc.lineAt pos).start = spaceStop f) :
    Deletes s pos (Change.delete (pairStart s pos) pos) := by
  have none_surplus := not_surplus_of_column found column
  obtain ⟨_, _, _, _, reaches, _⟩ := coherent.lies_lineAt inside
  have low := reaches.1
  by_cases own_line : (s.doc.lineAt pos).start ≤ f.container.start
  · rcases (frame?_around coherent found).cases coherent inside with
      ⟨_, no_quote, _⟩ | ⟨_, _, _, _, on_line⟩
    · rw [no_quote] at quote
      cases quote
    · obtain ⟨lead, glyphs, rest, on⟩ := on_line own_line
      have plain := @eatsContent_iff s pos fun g other _ later => by
        rw [frame?_single found other] at later
        omega
      exact deletes_own_line coherent inside none_surplus plain on column
  · refine ⟨?_, Or.inl (isBoundary_pairStart coherent inside), ?_, Or.inl rfl⟩
    · constructor
      · intro all eats
        change (s.text.touched (pairStart s pos) pos).all isErasable = true at all
        rcases eats with splits | ⟨_, _, _, _, _, content⟩
        · rw [splits.not_all_erasable (pairStart_lt coherent inside splits)] at all
          cases all
        · rw [content] at all
          cases all
      · intro keeps
        cases all : (s.text.touched (pairStart s pos) pos).all isErasable with
        | true => exact all
        | false => exact absurd (Or.inr ⟨f, found, quote, by omega, by omega, all⟩) keeps
    · intro start surplus
      exact absurd surplus (none_surplus start)

theorem deletes_blank (coherent : s.Coherent) (inside : pos ≤ s.doc.size)
    (found : frame? s pos = some f) (item : f.item.isSome = true)
    (blank : ((s.doc.lineAt pos).text.takeBytes f.stop).isBlank = true)
    (column : pos - (s.doc.lineAt pos).start = spaceStop f) :
    Deletes s pos (Change.delete (pairStart s pos) pos) := by
  have around := frame?_around coherent found
  apply deletes_pair coherent inside (not_surplus_of_column found column)
    (eatsContent_iff_of_item coherent inside found item)
  intro u c v text fits
  have member : c ∈ (s.doc.lineAt pos).text.slice 0 f.stop := by
    have reach : spaceStop f ≤ f.stop := by
      rcases around.cases coherent inside with ⟨no_item, _⟩ | ⟨_, _, _, width, _⟩
      · rw [no_item] at item
        cases item
      · exact spaceStop_le (by omega)
    rw [text]
    have positive := c.utf8Size_pos
    exact Text.mem_slice (by omega) (by omega)
  have white := List.all_eq_true.mp (isBlank_slice blank 0) c member
  exact isErasable_of_isWhite white

/-- All that an edit at `pos` can be, and what it is read off. -/
inductive Edits (s : EditState) (pos : Nat) : RangeEdit → Prop
  | surplus {f : Frame} : frame? s pos = some f →
      spaceStop f < pos - (s.doc.lineAt pos).start →
      ((s.doc.lineAt pos).text.slice (spaceStop f)
        (pos - (s.doc.lineAt pos).start)).isBlank = true →
      Edits s pos ⟨[Change.delete ((s.doc.lineAt pos).start + spaceStop f) pos],
        Range.caret ((s.doc.lineAt pos).start + spaceStop f)⟩
  | marker {f : Frame} {lead glyphs rest : Text} : frame? s pos = some f → f.item.isSome = true →
      f.On (s.doc.lineAt pos) lead glyphs rest →
      pos - (s.doc.lineAt pos).start = spaceStop f →
      Edits s pos (blankMarker s (s.doc.lineAt pos) f ((s.doc.lineAt pos).start + f.start))
  | indent {f : Frame} : frame? s pos = some f → f.item.isSome = true →
      ((s.doc.lineAt pos).text.takeBytes f.stop).isBlank = true →
      pos - (s.doc.lineAt pos).start = spaceStop f →
      (s.doc.lineAt pos).start + f.start < pos → Edits s pos (deletePair s pos)
  | quote {f : Frame} : frame? s pos = some f → f.isQuote = true →
      pos - (s.doc.lineAt pos).start = spaceStop f →
      (s.doc.lineAt pos).start + f.start < pos → Edits s pos (deletePair s pos)
  | blankedLine : (∀ start, ¬Surplus s pos start) → onBlankedLine s pos = true →
      Edits s pos (deletePair s pos)

theorem deleteMarker?_edits (coherent : s.Coherent) (inside : pos ≤ s.doc.size)
    (found : frame? s pos = some f) (column : pos - (s.doc.lineAt pos).start = spaceStop f)
    {e : RangeEdit} (made : deleteMarker? s (s.doc.lineAt pos) f pos = some e) : Edits s pos e := by
  have frame := (frame?_around coherent found).cases coherent inside
  cases shown : f.item with
  | none =>
    simp only [deleteMarker?, shown, Option.isSome_none, Bool.false_eq_true, false_and, true_or,
      ↓reduceIte] at made
    split at made
    · rename_i behind
      cases made
      rcases frame with ⟨_, _, no_width, none_after⟩ | ⟨kind, _⟩
      · -- a fenced code block has no marker, so nothing is left to delete at its column
        have stop : spaceStop f = f.start := by
          rw [spaceStop, Frame.markerStop, if_pos none_after, none_after, no_width]
          rfl
        omega
      · exact .quote found (by simpa [shown] using kind) column behind
    · cases made
  | some item =>
    have some_item : f.item.isSome = true := by
      rw [shown]
      rfl
    simp only [deleteMarker?, shown, decide_eq_true_eq, Option.isSome_some, true_and] at made
    by_cases own_line : (s.doc.lineAt pos).start ≤ item.start
    · rcases frame with ⟨no_item, _⟩ | ⟨_, _, _, _, on_line⟩
      · rw [no_item] at shown
        cases shown
      · obtain ⟨lead, glyphs, rest, on⟩ := on_line (by rwa [Frame.container, shown])
        rw [if_pos (Or.inl own_line), if_pos (by rw [not_isBlank_marker on]; decide)] at made
        cases made
        exact .marker found some_item on column
    · split at made
      · rename_i shows
        have blank := shows.resolve_left own_line
        rw [if_neg (not_not.mpr (isBlank_slice blank _))] at made
        split at made
        · rename_i behind
          cases made
          exact .indent found some_item blank column behind
        · cases made
      · cases made

theorem deleteAfterMarkup_eq (found : frame? s pos = some f) : deleteAfterMarkup s pos =
    if spaceStop f < pos - (s.doc.lineAt pos).start ∧ ((s.doc.lineAt pos).text.slice (spaceStop f)
        (pos - (s.doc.lineAt pos).start)).isBlank then
      .ok ⟨[Change.delete ((s.doc.lineAt pos).start + spaceStop f) pos],
        Range.caret ((s.doc.lineAt pos).start + spaceStop f)⟩
    else
      match if pos - (s.doc.lineAt pos).start = spaceStop f then
          deleteMarker? s (s.doc.lineAt pos) f pos else none with
      | some edit => .ok edit
      | none => .error .notAfterMarkup := by
  rw [frame?] at found
  rw [deleteAfterMarkup, found]
  rfl

theorem deleteAfterMarkup_edits (coherent : s.Coherent) (inside : pos ≤ s.doc.size)
    {e : RangeEdit} (made : deleteAfterMarkup s pos = .ok e) : Edits s pos e := by
  cases found : frame? s pos with
  | none =>
    rw [frame?] at found
    rw [deleteAfterMarkup, found] at made
    cases made
  | some f =>
    rw [deleteAfterMarkup_eq found] at made
    split at made
    · rename_i surplus
      cases made
      exact .surplus found surplus.1 surplus.2
    · split at made
      · rename_i deleted
        cases made
        split at deleted
        · rename_i column
          exact deleteMarker?_edits coherent inside found column deleted
        · cases deleted
      · cases made

theorem not_surplus_of_error {why : Decline} (failed : deleteAfterMarkup s pos = .error why)
    (start : Nat) : ¬Surplus s pos start := by
  rintro ⟨f, found, column, blank, _⟩
  rw [deleteAfterMarkup_eq found, if_pos ⟨column, blank⟩] at failed
  cases failed

theorem edit_edits (coherent : s.Coherent) {r : Range} (inside : r.Inside s.doc.size)
    {e : RangeEdit} (made : edit s r = .ok e) : Edits s r.head e := by
  unfold edit at made
  split at made
  · cases made
  · split at made
    · cases made
    · split at made
      · rename_i deleted
        cases made
        exact deleteAfterMarkup_edits coherent inside.2 deleted
      · rename_i failed
        split at made
        · rename_i blanked
          cases made
          exact .blankedLine (not_surplus_of_error failed) blanked.2
        · cases made

theorem deletes_blankedLine (coherent : s.Coherent) (inside : pos ≤ s.doc.size)
    (none_surplus : ∀ start, ¬Surplus s pos start) (blanked : onBlankedLine s pos = true) :
    Deletes s pos (Change.delete (pairStart s pos) pos) := by
  obtain ⟨before, after, parts, lies, reaches, _⟩ := coherent.lies_lineAt inside
  simp only [onBlankedLine, Bool.and_eq_true, decide_eq_true_eq] at blanked
  have erasable : ∀ c ∈ (s.doc.lineAt pos).text, isErasable c = true := fun c member =>
    isErasable_of_isWhite (List.all_eq_true.mp blanked.2 c member)
  have all := lies.touched_erasable parts (Nat.le_max_right (s.text.charsBefore pos 2) _) reaches
    erasable
  change (s.text.touched (pairStart s pos) pos).all isErasable = true at all
  refine ⟨iff_of_true all ?_, Or.inl (isBoundary_pairStart coherent inside), ?_, Or.inl rfl⟩
  · rintro (splits | ⟨_, _, _, _, _, content⟩)
    · rw [splits.not_all_erasable (pairStart_lt coherent inside splits)] at all
      cases all
    · rw [content] at all
      cases all
  · intro start surplus
    exact absurd surplus (none_surplus start)

/-- Every edit of Backspace is a single change. -/
theorem Edits.exists_deletes (coherent : s.Coherent) (inside : pos ≤ s.doc.size) {e : RangeEdit}
    (edits : Edits s pos e) : ∃ c, e.changes = [c] ∧ Deletes s pos c := by
  cases edits with
  | surplus found column blank =>
    exact ⟨_, rfl, deletes_surplus coherent inside found column blank⟩
  | marker found item on column =>
    exact ⟨_, rfl, blankMarker_deletes coherent inside (not_surplus_of_column found column)
      (eatsContent_iff_of_item coherent inside found item) on column _⟩
  | indent found item blank column _ =>
    exact ⟨_, rfl, deletes_blank coherent inside found item blank column⟩
  | quote found quote column _ =>
    exact ⟨_, rfl, deletes_quote coherent inside found quote column⟩
  | blankedLine none_surplus blanked =>
    exact ⟨_, rfl, deletes_blankedLine coherent inside none_surplus blanked⟩

/-- What an edit at `pos` is: the text between an offset of the line and the caret goes, or blanks
come in place of the marker of an item that begins on the line. -/
inductive Makes (s : EditState) (pos : Nat) : RangeEdit → Prop
  | takes {start : Nat} : (s.doc.lineAt pos).start ≤ start → start < pos →
      Makes s pos ⟨[Change.delete start pos], Range.caret start⟩
  | blanks {f : Frame} {lead glyphs rest : Text} : frame? s pos = some f → f.item.isSome = true →
      f.On (s.doc.lineAt pos) lead glyphs rest →
      pos - (s.doc.lineAt pos).start = spaceStop f →
      Makes s pos (blankMarker s (s.doc.lineAt pos) f ((s.doc.lineAt pos).start + f.start))

theorem charsBefore_lt (t : Text) (count : Nat) (some_bytes : 0 < pos) :
    t.charsBefore pos count < pos := by
  rcases Nat.lt_or_eq_of_le (t.floor_le pos) with short | full
  · exact Nat.lt_of_le_of_lt (charsBefore_le t pos count) short
  · -- the last character before the offset is stepped over
    have some_char : t.takeBytes pos ≠ [] := by
      intro nothing
      rw [Text.floor, nothing, Text.size_nil] at full
      omega
    have length := List.length_pos_of_ne_nil some_char
    have stepped : (t.takeBytes pos).drop ((t.takeBytes pos).length - max count 1) ≠ [] := by
      rw [ne_eq, List.drop_eq_nil_iff]
      omega
    have parts := congrArg Text.size
      (List.take_append_drop ((t.takeBytes pos).length - max count 1) (t.takeBytes pos))
    have behind := Text.size_pos stepped
    rw [Text.size_append] at parts
    rw [Text.floor] at full
    unfold Text.charsBefore
    dsimp only
    omega

theorem deletePair_makes (low : (s.doc.lineAt pos).start < pos) : Makes s pos (deletePair s pos) :=
  .takes (Nat.le_max_right _ _) (Nat.max_lt.mpr ⟨charsBefore_lt _ _ (Nat.zero_lt_of_lt low), low⟩)

theorem edit_makes (coherent : s.Coherent) {r : Range} (inside : r.Inside s.doc.size)
    {e : RangeEdit} (made : edit s r = .ok e) : Makes s r.head e := by
  cases edit_edits coherent inside made with
  | surplus _ column _ => exact .takes (Nat.le_add_right _ _) (by omega)
  | marker found item on column => exact .blanks found item on column
  | indent _ _ _ _ behind => exact deletePair_makes (by omega)
  | quote _ _ _ behind => exact deletePair_makes (by omega)
  | blankedLine _ blanked =>
    simp only [onBlankedLine, Bool.and_eq_true, decide_eq_true_eq] at blanked
    exact deletePair_makes (by omega)

theorem range_deletes (coherent : s.Coherent) {r : Range} (range : r ∈ s.selection.ranges)
    {e : RangeEdit} (edited : (edit s r).mapError Refusal.declined = .ok e) :
    ∃ c, e.changes = [c] ∧ Deletes s r.head c :=
  (edit_edits coherent (coherent.inside r range) (Refusal.ok_of_mapError edited)).exists_deletes
    coherent (coherent.inside r range).2

variable {t : Transaction}

/-- Backspace takes only white space and markup away unless a caret eats content. What it does not
take away stays in order. -/
theorem erasable_iff_eats_nothing (coherent : s.Coherent) (made : run s = .ok t) :
    ((t.changes.covered s.text).all isErasable = true ↔
      ∀ r ∈ s.selection.ranges, ¬EatsContent s r.head) ∧
      ∀ s', s.next? t = some s' → (t.changes.survivors s.text).Sublist s'.text := by
  constructor
  · rw [Transaction.byRange_covered_all_iff made]
    constructor
    · intro all r range
      obtain ⟨e, edited⟩ := Transaction.byRange_each made range
      obtain ⟨c, changes, deletes⟩ := range_deletes coherent range edited
      apply deletes.erasable.mp
      apply all r range e edited
      rw [changes]
      exact List.mem_singleton_self _
    · intro keeps r range e edited c member
      obtain ⟨d, changes, deletes⟩ := range_deletes coherent range edited
      rw [changes] at member
      rw [List.mem_singleton.mp member]
      exact deletes.erasable.mpr (keeps r range)
  · exact fun s' next => EditState.survivors_of_byRange made next

def markedItem : EditState := .ofText ['-', ' ', 'a'] (Selection.caret 2) {}

theorem markedItem_eats_nothing : ∃ t, run markedItem = .ok t ∧
    t.changes.covered markedItem.text = ['-', ' '] ∧
    ∀ r ∈ markedItem.selection.ranges, ¬EatsContent markedItem r.head := by
  have made : run markedItem =
      .ok ⟨⟨[⟨0, 2, [' ', ' ']⟩], 3⟩, some (Selection.caret 2)⟩ := by cbv
  have all := erasable_iff_eats_nothing (EditState.coherent_ofText _ _ _) made
  exact ⟨_, made, by cbv, all.1.mp (by cbv)⟩

def lazyQuote : EditState := .ofText ['>', ' ', 'a', '\n', 'b', 'c'] (Selection.caret 6) {}

/-- Backspace can take text away: on this line it takes two letters for a quote mark. -/
theorem eats_letters : ¬∀ (s : EditState) (t : Transaction), s.Coherent → run s = .ok t →
    (t.changes.covered s.text).all isErasable = true := by
  intro all
  have made : run lazyQuote = .ok ⟨⟨[⟨4, 6, []⟩], 6⟩, some (Selection.caret 4)⟩ := by cbv
  have kept := all lazyQuote _ (EditState.coherent_ofText _ _ _) made
  have content : ((⟨[⟨4, 6, []⟩], 6⟩ : ChangeSet).covered lazyQuote.text).all
      isErasable = false := by cbv
  rw [content] at kept
  cases kept

end Backspace

end MarkdownEditing

import MarkdownEditing.Proofs.Syntax.Glyphs
import MarkdownEditing.Proofs.Toggle.Wrapped

namespace MarkdownEditing

theorem Place.kind_of_covering {p c : Place} {lo hi : Nat} {kind : Kind}
    (found : p.covering? lo hi kind = some c) : c.kind = kind := by
  rw [covering?] at found
  have accepted := List.find?_some found
  exact beq_iff_eq.mp accepted

inductive InlineStyle
  | bold
  | italic
  | strikethrough
  | inlineCode
  | inlineMath
  deriving DecidableEq, Repr

namespace InlineStyle

def pair : InlineStyle → MarkPair
  | bold => .bold
  | italic => .italic
  | strikethrough => .strikethrough
  | inlineCode => .inlineCode
  | inlineMath => .inlineMath

def glyphs : InlineStyle → List Char
  | bold | italic => ['*', '_']
  | strikethrough => ['~']
  | inlineCode => ['\x60']
  | inlineMath => ['$']

def strip (style : InlineStyle) (t : Text) : Text := t.filter fun c => !style.glyphs.contains c

variable {style : InlineStyle} {s : EditState} {r : Range} {e : RangeEdit} {c : Change} {t u : Text}

theorem strip_append (style : InlineStyle) (t u : Text) :
    style.strip (t ++ u) = style.strip t ++ style.strip u := List.filter_append ..

theorem strip_of_glyphs (marks : ∀ c ∈ t, c ∈ style.glyphs) : style.strip t = [] := by
  apply List.filter_eq_nil_iff.mpr
  intro c member
  rw [List.contains_iff_mem.mpr (marks c member)]
  exact Bool.false_ne_true

theorem glyphs_of_pair (style : InlineStyle) :
    (∀ c ∈ style.pair.left, c ∈ style.glyphs) ∧ ∀ c ∈ style.pair.right, c ∈ style.glyphs := by
  cases style <;> simp [pair, glyphs, MarkPair.bold, MarkPair.italic, MarkPair.strikethrough,
    MarkPair.inlineCode, MarkPair.inlineMath]

theorem strip_marks (style : InlineStyle) (t : Text) :
    style.strip (style.pair.left ++ t ++ style.pair.right) = style.strip t := by
  rw [strip_append, strip_append, strip_of_glyphs style.glyphs_of_pair.1,
    strip_of_glyphs style.glyphs_of_pair.2, List.nil_append, List.append_nil]

theorem glyphs_of_node {kind mark : Kind} (node : style.pair.node = some (kind, mark)) :
    kind.isInline = true ∧ mark.isMark = true ∧ kind.glyphs = style.glyphs := by
  cases style <;> cases node <;> decide

/-- The change takes away and puts in the same, but for marks. -/
def Neutral (style : InlineStyle) (s : EditState) (c : Change) : Prop :=
  style.strip c.insert = style.strip (s.text.slice c.start c.stop)

theorem neutral_unwrapSurrounding (whole : r.Whole s.text)
    (found : style.pair.unwrapSurrounding? s r = some e) : ∀ c ∈ e.changes, style.Neutral s c := by
  have surrounds := MarkPair.surrounds_of_unwrapSurrounding? whole found
  rw [MarkPair.unwrapSurrounding?_of_surrounds surrounds] at found
  cases found
  intro c member
  rw [List.mem_singleton.mp member]
  obtain ⟨a, m, b, parts, start, stop⟩ := surrounds
  have held := (MarkPair.Surrounds.slice_eq parts start stop).2.1
  have begins : r.start - style.pair.left.size = a.size := by
    rw [← start, Text.size_append, Nat.add_sub_cancel]
  have ends : r.stop + style.pair.right.size =
      a.size + (style.pair.left ++ m ++ style.pair.right).size := by
    rw [← stop]
    simp only [Text.size_append, Nat.add_assoc]
  have around : s.text.slice (r.start - style.pair.left.size) (r.stop + style.pair.right.size) =
      style.pair.left ++ m ++ style.pair.right := by
    have shape : s.text = a ++ (style.pair.left ++ m ++ style.pair.right) ++ b := by
      rw [parts]
      simp only [List.append_assoc]
    rw [begins, ends, shape]
    exact Text.slice_middle a _ b
  rw [Neutral]
  dsimp only [MarkPair.unwrapped]
  rw [around, held, strip_marks]

theorem neutral_wrap : ∀ c ∈ (style.pair.wrap s r).changes, style.Neutral s c := by
  intro c member
  rw [List.mem_singleton.mp member]
  exact strip_marks style _

/-- The marks of an element that is found around a range consist of mark characters. -/
theorem strip_mark (coherent : s.Coherent) {node mark : Place} {marks : List Place}
    (found : style.pair.element? s r = some (node, marks)) (member : mark ∈ marks) :
    style.strip (s.text.slice mark.start mark.stop) = [] := by
  obtain ⟨kind, mark_kind, of_style, covered, rfl⟩ := MarkPair.element?_parts found
  obtain ⟨child, is_mark⟩ := List.mem_filter.mp member
  obtain ⟨inline, marking, same⟩ := glyphs_of_node of_style
  rw [coherent.tree] at covered
  have element_in := (Place.root_in _).covering covered
  have slice := (element_in.child child).slice_eq
  rw [Tree.text_ofText] at slice
  rw [slice]
  apply strip_of_glyphs
  rw [← same]
  obtain ⟨children, glyphic, listed⟩ :=
    ((Tree.glyphic_ofText s.text).of_in element_in).of_child child
  rw [Place.kind_of_covering covered] at glyphic
  obtain ⟨leaf, of_mark⟩ := Bool.and_eq_true_iff.mp is_mark
  obtain ⟨tree, start, above⟩ := mark
  cases tree with
  | node => cases leaf
  | token mark raw =>
    cases beq_iff_eq.mp of_mark
    exact glyphic inline _ raw listed marking

theorem neutral_edits (coherent : s.Coherent) (whole : r.Whole s.text)
    (edits : style.pair.Edits s r e) : ∀ c ∈ e.changes, style.Neutral s c := by
  cases edits with
  | surrounding found => exact neutral_unwrapSurrounding whole found
  | handled => exact fun c member => absurd member List.not_mem_nil
  | element found made =>
    intro c member
    obtain ⟨mark, in_marks, rfl⟩ := List.mem_map.mp ((ChangeSet.mem_ofChanges made).mp member).1
    exact (strip_mark coherent found in_marks).symm
  | wrapped => exact neutral_wrap

theorem neutral_toggle (style : InlineStyle) (coherent : s.Coherent)
    (whole : ∀ r ∈ s.selection.ranges, r.Whole s.text) :
    ∃ changes, ChangeSet.ofChanges changes s.doc.size = .ok (style.pair.toggle s).changes ∧
      ∀ c ∈ changes, style.Neutral s c := by
  rcases MarkPair.toggle_cases style.pair s with ⟨edits, each, made⟩ | nothing
  · refine ⟨_, Transaction.ofEdits_ok made, fun c member => ?_⟩
    obtain ⟨e, in_edits, inside⟩ := List.mem_flatMap.mp member
    obtain ⟨r, in_ranges, edited⟩ := exists_of_forall₂ each in_edits
    exact neutral_edits coherent (whole r in_ranges) edited c inside
  · rw [nothing]
    exact ⟨[], ChangeSet.ofChanges_nil _, fun c member => absurd member List.not_mem_nil⟩

/-- Toggling a style adds and removes mark characters of the style only: without them the text stays
as it is. -/
theorem strip_toggle {s : EditState} (style : InlineStyle) (coherent : s.Coherent)
    (whole : ∀ r ∈ s.selection.ranges, r.Whole s.text) :
    ∃ s', s.next? (style.pair.toggle s) = some s' ∧ style.strip s'.text = style.strip s.text := by
  obtain ⟨changes, made, neutral⟩ := neutral_toggle style coherent whole
  obtain ⟨fits, cuts⟩ := MarkPair.toggle_whole coherent whole style.pair
  obtain ⟨s', next⟩ := EditState.next?_isSome fits.1 cuts
  refine ⟨s', next, ChangeSet.filter_applyTo? made cuts (EditState.next?_changed fits.1 next).1 ?_⟩
  exact fun c member => neutral c ((ChangeSet.mem_ofChanges made).mp member).1

def mixedSelection : EditState :=
  .ofText ['*', '*', 'a', 'b', '*', '*', ' ', '*', '*', 'c', '*', '*', ' ', 'd']
    ⟨[⟨2, 3⟩, ⟨9, 10⟩, ⟨13, 14⟩], 0⟩ {}

theorem strip_mixedSelection : ∃ s', mixedSelection.next? (bold.pair.toggle mixedSelection) = some s' ∧
    s'.text = ['a', 'b', ' ', 'c', ' ', '*', '*', 'd', '*', '*'] ∧
    bold.strip s'.text = ['a', 'b', ' ', 'c', ' ', 'd'] := by
  have ranges : mixedSelection.selection.ranges = [⟨2, 3⟩, ⟨9, 10⟩, ⟨13, 14⟩] := by cbv
  have toggled : (mixedSelection.next? (bold.pair.toggle mixedSelection)).map EditState.text =
      some ['a', 'b', ' ', 'c', ' ', '*', '*', 'd', '*', '*'] := by cbv
  obtain ⟨s', next, same⟩ := strip_toggle (s := mixedSelection) bold
    (EditState.coherent_ofText _ _ _) (by rw [ranges]; decide)
  rw [next] at toggled
  exact ⟨s', next, Option.some.inj toggled, same⟩

end InlineStyle

end MarkdownEditing

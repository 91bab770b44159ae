import MarkdownEditing.Toggle.Leading
import MarkdownEditing.Toggle.ListStyle
import MarkdownEditing.Toggle.Marks
import MarkdownEditing.Proofs.Edit.Whole
import MarkdownEditing.Proofs.Text.Blank

namespace MarkdownEditing

def Range.Whole (r : Range) (t : Text) : Prop :=
  t.isBoundary r.anchor = true ∧ t.isBoundary r.head = true

instance (r : Range) (t : Text) : Decidable (r.Whole t) := inferInstanceAs (Decidable (_ ∧ _))

namespace Range.Whole

variable {r : Range} {t : Text}

theorem isBoundary_start (whole : r.Whole t) : t.isBoundary r.start = true :=
  Text.isBoundary_min whole.1 whole.2

theorem isBoundary_stop (whole : r.Whole t) : t.isBoundary r.stop = true :=
  Text.isBoundary_max whole.1 whole.2

end Range.Whole

def Transaction.Whole (t : Transaction) (s : EditState) : Prop :=
  t.changes.Fits s.doc.size ∧ ∀ c ∈ t.changes.changes, c.Whole s.text

variable {s : EditState} {t : Transaction} {c : Change}

namespace Transaction

theorem whole_of_ofChanges {changes : List Change} {set : ChangeSet} {selection : Option Selection}
    (made : ChangeSet.ofChanges changes s.doc.size = .ok set)
    (whole : ∀ c ∈ changes, c.Whole s.text) : Whole ⟨set, selection⟩ s :=
  ⟨ChangeSet.fits_of_ofChanges made, fun c member =>
    whole c ((ChangeSet.mem_ofChanges made).mp member).1⟩

theorem whole_empty (s : EditState) : Whole ⟨ChangeSet.empty s.doc.size, none⟩ s :=
  ⟨ChangeSet.fits_empty _, fun _ member => absurd member List.not_mem_nil⟩

theorem whole_of_ofEdits {edits : List RangeEdit} (made : ofEdits s edits = .ok t)
    (whole : ∀ e ∈ edits, ∀ c ∈ e.changes, c.Whole s.text) : t.Whole s := by
  apply whole_of_ofChanges (ofEdits_ok made)
  intro c member
  obtain ⟨e, in_edits, inside⟩ := List.mem_flatMap.mp member
  exact whole e in_edits c inside

end Transaction

section Lines

variable {l : Line}

theorem EditState.Coherent.mem_lines (coherent : s.Coherent) (member : l ∈ s.doc.lines) :
    ∃ before after, s.text = before ++ l.text ++ after ∧ l.Lies before after := by
  rw [coherent.doc] at member
  exact Line.lies_of_mem member

theorem Line.numbered_ne_nil {number start : Nat} {pieces : List Text} (some_piece : pieces ≠ []) :
    numbered number start pieces ≠ [] := by
  cases pieces with
  | nil => exact absurd rfl some_piece
  | cons piece pieces => cases pieces <;> simp [numbered]

theorem EditState.Coherent.line_mem (coherent : s.Coherent) (number : Nat) :
    s.doc.line number ∈ s.doc.lines := by
  have some_line : s.doc.lines ≠ [] := by
    rw [coherent.doc]
    exact Line.numbered_ne_nil (Line.split_ne_nil _)
  have positive := List.length_pos_iff.mpr some_line
  have inside : max 1 (min number s.doc.lines.length) - 1 < s.doc.lines.length := by omega
  rw [Document.line, List.getElem?_eq_getElem inside, Option.getD_some]
  exact List.getElem_mem inside

end Lines

namespace LeadingMark

@[simp] theorem length_marks (mark : LeadingMark) (n : Nat) : (mark.marks n).length = n :=
  List.length_replicate

@[simp] theorem size_marks (mark : LeadingMark) (n : Nat) : (mark.marks n).size = n := by
  have single : ∀ c ∈ mark.marks n, c.utf8Size = 1 := by
    intro c member
    rw [List.eq_of_mem_replicate member]
    cases mark <;> rfl
  rw [Text.size_eq_length single, length_marks]

theorem run?_parts {mark : LeadingMark} {u : Text} {n spaces : Nat}
    (found : mark.run? u = some (n, spaces)) :
    (∃ rest, u = mark.marks n ++ (Text.spaces spaces ++ rest)) ∧ 1 ≤ n ∧ 1 ≤ spaces := by
  have parts := List.takeWhile_append_dropWhile (p := (· == mark.char)) (l := u)
  have same : u.takeWhile (· == mark.char) = mark.marks (u.takeWhile (· == mark.char)).length := by
    apply List.eq_replicate_of_mem
    intro c member
    simpa using List.all_eq_true.mp List.all_takeWhile c member
  unfold run? at found
  dsimp only at found
  generalize u.takeWhile (· == mark.char) = run at parts same found
  split at found
  · rename_i some_run
    cases found
    refine ⟨⟨(u.drop run.length).drop (Text.leadingSpaces (u.drop run.length)), ?_⟩, some_run⟩
    rw [← Text.leadingSpaces_parts, ← same]
    conv => rhs; rw [← parts, List.drop_left]
    exact parts.symm
  · cases found

theorem changeLine_whole (coherent : s.Coherent) {mark : LeadingMark} {level : Nat}
    {remove alone : Bool} {l : Line} (member : l ∈ s.doc.lines)
    (found : mark.changeLine level remove alone l = some c) : c.Whole s.text := by
  obtain ⟨before, after, parts, lies⟩ := coherent.mem_lines member
  have start := lies.isBoundary_start parts
  unfold changeLine at found
  split at found
  · rename_i n spaces run
    obtain ⟨⟨rest, text⟩, -⟩ := run?_parts run
    split at found
    · split at found
      · cases found
        refine ⟨start, ?_⟩
        rw [← List.append_assoc] at text
        have stop := lies.isBoundary_add parts text
        rw [Text.size_append, size_marks, Text.size_spaces, ← Nat.add_assoc] at stop
        exact stop
      · cases found
    · cases found
      have stop := lies.isBoundary_add parts text
      rw [size_marks] at stop
      exact ⟨start, stop⟩
  · split at found
    · cases found
      exact ⟨start, start⟩
    · cases found

theorem toggle_whole (coherent : s.Coherent) (mark : LeadingMark) (level : Nat) :
    (mark.toggle level s).Whole s := by
  unfold toggle
  dsimp only
  split
  · rename_i set made
    apply Transaction.whole_of_ofChanges made
    intro c member
    obtain ⟨l, covered, found⟩ := List.mem_filterMap.mp member
    exact changeLine_whole coherent (List.mem_filter.mp covered).1 found
  · exact Transaction.whole_empty s

end LeadingMark

namespace ListKind

theorem toggle_whole (coherent : s.Coherent) (kind : ListKind) : (kind.toggle s).Whole s := by
  unfold toggle
  dsimp only
  split
  · exact Transaction.whole_empty s
  · rename_i set made
    apply Transaction.whole_of_ofChanges made
    intro c member
    obtain ⟨g, _, rfl⟩ := List.mem_map.mp member
    obtain ⟨_, _, first_parts, first⟩ := coherent.mem_lines (coherent.line_mem g.first)
    obtain ⟨_, _, last_parts, last⟩ := coherent.mem_lines (coherent.line_mem g.last)
    exact ⟨first.isBoundary_start first_parts, last.isBoundary_stop last_parts⟩

end ListKind

namespace MarkPair

variable {pair : MarkPair} {r : Range} {e : RangeEdit}

theorem unwrapSurrounding?_whole (whole : r.Whole s.text)
    (found : pair.unwrapSurrounding? s r = some e) : ∀ c ∈ e.changes, c.Whole s.text := by
  unfold unwrapSurrounding? at found
  dsimp only at found
  split at found
  · rename_i room
    split at found
    · rename_i shown
      obtain ⟨inside, left, right⟩ := shown
      cases found
      intro c member
      rw [List.mem_singleton.mp member]
      constructor
      · apply Text.isBoundary_of_slice_left whole.isBoundary_start
        have size : (s.text.slice (r.start - pair.left.size) r.start).size = pair.left.size :=
          congrArg Text.size left
        dsimp only
        omega
      · apply Text.isBoundary_of_slice_right whole.isBoundary_stop
        have size : (s.text.slice r.stop (r.stop + pair.right.size)).size = pair.right.size :=
          congrArg Text.size right
        dsimp only
        omega
    · cases found
  · cases found

theorem wrap_whole (whole : r.Whole s.text) : ∀ c ∈ (pair.wrap s r).changes, c.Whole s.text := by
  intro c member
  rw [List.mem_singleton.mp member]
  exact ⟨whole.isBoundary_start, whole.isBoundary_stop⟩

theorem element?_parts {node : Place} {marks : List Place}
    (found : pair.element? s r = some (node, marks)) : ∃ kind mark,
      pair.node = some (kind, mark) ∧ (Place.root s.tree).covering? r.start r.stop kind = some node ∧
      marks = node.children.filter fun child => !child.isNode && child.kind == mark := by
  unfold element? at found
  split at found
  · cases found
  · rename_i kind mark of_style
    split at found
    · cases found
    · rename_i covered
      dsimp only at found
      split at found
      · cases found
        exact ⟨kind, mark, of_style, covered, rfl⟩
      · cases found

/-- What a toggle can make of one range: the marks around it go, those of the element around it go or
have gone with another range, or it is wrapped. -/
inductive Edits (pair : MarkPair) (s : EditState) (r : Range) : RangeEdit → Prop
  | surrounding {e : RangeEdit} : pair.unwrapSurrounding? s r = some e → Edits pair s r e
  | handled : Edits pair s r ⟨[], r⟩
  | element {node : Place} {marks : List Place} {set : ChangeSet} :
      pair.element? s r = some (node, marks) →
      ChangeSet.ofChanges (marks.map fun mark => Change.delete mark.start mark.stop) s.doc.size =
        .ok set →
      Edits pair s r ⟨set.changes, r.map set⟩
  | wrapped : Edits pair s r (pair.wrap s r)

theorem unwrapElement?_edits {handled : List (Nat × Nat)} {span : Nat × Nat}
    (found : pair.unwrapElement? s handled r = some (e, span)) : pair.Edits s r e := by
  unfold unwrapElement? at found
  split at found
  · cases found
  · rename_i node marks element
    dsimp only at found
    split at found
    · cases found
      exact .handled
    · split at found
      · rename_i set made
        cases found
        exact .element element made
      · cases found

theorem edits_each (handled : List (Nat × Nat)) (ranges : List Range) :
    List.Forall₂ (pair.Edits s) ranges (pair.edits s handled ranges) := by
  induction ranges generalizing handled with
  | nil => exact .nil
  | cons r rest ih =>
    rw [edits]
    split
    · rename_i found
      exact .cons (.surrounding found) (ih _)
    · split
      · rename_i found
        exact .cons (unwrapElement?_edits found) (ih _)
      · exact .cons .wrapped (ih _)

theorem textEdits_each (ranges : List Range) :
    List.Forall₂ (pair.Edits s) ranges (pair.textEdits s ranges) := by
  rw [textEdits, List.forall₂_map_right_iff, List.forall₂_same]
  intro r _
  cases found : pair.unwrapSurrounding? s r with
  | none => exact .wrapped
  | some e => exact .surrounding found

theorem toggle_cases (pair : MarkPair) (s : EditState) :
    (∃ edits, List.Forall₂ (pair.Edits s) s.selection.ranges edits ∧
      Transaction.ofEdits s edits = .ok (pair.toggle s)) ∨
      pair.toggle s = ⟨ChangeSet.empty s.doc.size, none⟩ := by
  unfold toggle
  split
  · rename_i made
    exact Or.inl ⟨_, edits_each _ _, made⟩
  · split
    · rename_i made
      exact Or.inl ⟨_, textEdits_each _, made⟩
    · exact Or.inr rfl

theorem Edits.changes_whole (coherent : s.Coherent) (whole : r.Whole s.text)
    (edits : pair.Edits s r e) :
    ∀ c ∈ e.changes, c.Whole s.text := by
  cases edits with
  | surrounding found => exact unwrapSurrounding?_whole whole found
  | handled => exact fun c member => absurd member List.not_mem_nil
  | element found made =>
    intro c member
    obtain ⟨mark, in_marks, rfl⟩ := List.mem_map.mp ((ChangeSet.mem_ofChanges made).mp member).1
    obtain ⟨_, _, _, covered, rfl⟩ := element?_parts found
    rw [coherent.tree] at covered
    have mark_in := ((Place.root_in _).covering covered).child (List.mem_filter.mp in_marks).1
    have start := mark_in.isBoundary_start
    have stop := mark_in.isBoundary_stop
    rw [Tree.text_ofText] at start stop
    exact ⟨start, stop⟩
  | wrapped => exact wrap_whole whole

theorem toggle_whole (coherent : s.Coherent) (whole : ∀ r ∈ s.selection.ranges, r.Whole s.text)
    (pair : MarkPair) : (pair.toggle s).Whole s := by
  rcases toggle_cases pair s with ⟨edits, each, made⟩ | nothing
  · apply Transaction.whole_of_ofEdits made
    intro e member
    obtain ⟨r, in_ranges, edited⟩ := exists_of_forall₂ each member
    exact edited.changes_whole coherent (whole r in_ranges)
  · rw [nothing]
    exact Transaction.whole_empty s

end MarkPair

section Format

theorem replaceRanges_whole (whole : ∀ r ∈ s.selection.ranges, r.Whole s.text) {u : Text}
    {offset : Option Nat} (made : replaceRanges u offset s = .ok t) : t.Whole s := by
  apply Transaction.whole_of_ofEdits made
  intro e member
  obtain ⟨r, in_ranges, rfl⟩ := List.mem_map.mp member
  intro c single
  rw [List.mem_singleton.mp single]
  exact ⟨(whole r in_ranges).isBoundary_start, (whole r in_ranges).isBoundary_stop⟩

theorem trimLine?_whole (coherent : s.Coherent) {l : Line} (member : l ∈ s.doc.lines)
    (found : trimLine? l = some c) : c.Whole s.text := by
  obtain ⟨before, after, parts, lies⟩ := coherent.mem_lines member
  unfold trimLine? at found
  dsimp only at found
  split at found
  · cases found
    obtain ⟨blank, text, _⟩ := l.text.trimEnd_parts
    exact ⟨lies.isBoundary_add parts text, lies.isBoundary_stop parts⟩
  · cases found

theorem formatContent_whole (coherent : s.Coherent) (final trim userInitiated : Bool) :
    (formatContent final trim userInitiated s).Whole s := by
  unfold formatContent
  dsimp only
  split
  · rename_i set made
    apply Transaction.whole_of_ofChanges made
    intro c member
    rcases List.mem_append.mp member with member | member
    · split at member
      · rw [List.mem_singleton.mp member]
        exact ⟨Text.isBoundary_size _, Text.isBoundary_size _⟩
      · cases member
    · obtain ⟨l, in_lines, found⟩ := List.mem_filterMap.mp member
      split at in_lines
      · exact trimLine?_whole coherent (List.mem_filter.mp in_lines).1 found
      · cases in_lines
  · exact Transaction.whole_empty s

end Format

end MarkdownEditing

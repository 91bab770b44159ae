import MarkdownEditing.Proofs.Edit.Rows
import MarkdownEditing.Proofs.Edit.Single
import MarkdownEditing.Proofs.Markup.Backspace
import MarkdownEditing.Proofs.Syntax.Indents
import MarkdownEditing.Proofs.Text.Indentation

namespace MarkdownEditing

namespace Text

theorem advance_normalizeIndent (settings : EditorSettings) (n : Nat) :
    advance (max settings.tabSize 1) 0 ((spaces n).normalizeIndent settings) = n ∧
      ∀ c ∈ (spaces n).normalizeIndent settings, isIndent c = true := by
  have space : ∀ c ∈ spaces n, isIndent c = true := isIndent_tabs_spaces 0 n
  have whole : (spaces n).indent = spaces n := List.takeWhile_eq_self_iff.mpr space
  have written := reindented_normalizeIndent settings (spaces n)
  have none_behind : ((spaces n).normalizeIndent settings).flush = [] :=
    written.flush.trans (List.dropWhile_eq_nil_iff.mpr space)
  have blank : ((spaces n).normalizeIndent settings).indent = (spaces n).normalizeIndent settings := by
    have parts := indent_append_flush ((spaces n).normalizeIndent settings)
    rw [none_behind, List.append_nil] at parts
    exact parts
  have column := written.column
  rw [columnAt_indent, columnAt_indent, blank, whole, advance_spaces, Nat.zero_add] at column
  exact ⟨column, List.takeWhile_eq_self_iff.mp blank⟩

theorem columnAt_append (lead m rest : Text) (tab n : Nat) :
    (lead ++ m ++ rest).columnAt tab (lead.size + m.size + n) =
      advance (max tab 1) (advance (max tab 1) (advance (max tab 1) 0 lead) m)
        (rest.takeBytes n) := by
  rw [columnAt, ← size_append, takeBytes_append, advance_append, advance_append]

end Text

theorem IsItemMarker.leadingSpaces {mark : Text} (marker : IsItemMarker mark) (tail : Text) :
    Text.leadingSpaces (mark ++ tail) = 0 := by
  cases marker with
  | bullet c glyph => exact Text.leadingSpaces_cons _ (glyph_facts (c := c) (by grind)).1
  | number digits c some_digit all glyph =>
    cases digits with
    | nil => exact absurd rfl some_digit
    | cons d digits =>
      exact Text.leadingSpaces_cons _ (digit_facts (List.all_eq_true.mp all d List.mem_cons_self)).1

theorem Frame.Around.before_eq_nil {s : EditState} {f : Frame} {pos : Nat} (coherent : s.Coherent)
    (frame : f.Around s pos) : f.before = [] := by
  obtain ⟨p, p_inside, node, found, -⟩ := frame
  rw [coherent.doc] at found
  have none_before : p.kind = .listItem → Text.spaces (Text.leadingSpaces
      (((Document.ofText s.text s.doc.lineBreak).lineAt p.start).text.dropBytes
        (p.start - ((Document.ofText s.text s.doc.lineBreak).lineAt p.start).start))) = [] := by
    intro kind
    obtain ⟨_, _, _, starts, is_mark⟩ :=
      p_inside.mark_on_line s.doc.lineBreak node (Or.inr kind)
    rw [kind] at is_mark
    rw [starts.dropBytes_start, is_mark.isItemMarker.leadingSpaces, Text.spaces, List.replicate_zero]
  cases ofNode?_reads found with
  | fence => rfl
  | quote _ read => exact Marker.before_of_quote? read
  | ordered kind _ _ read => exact (Marker.before_of_ordered? read).trans (none_before kind)
  | bullet kind _ _ read => exact (Marker.before_of_bullet? read).trans (none_before kind)

theorem Row.ofText_replaced {t text : Text} {above below : List Row} {row : Row}
    (parts : Row.ofText t = above ++ row :: below) (clean : '\n' ∉ text)
    (ends : text.getLast? = some '\r' → row.text.getLast? = some '\r') :
    Row.ofText (flat (above ++ ⟨text, row.ending⟩ :: below)) =
      above ++ ⟨text, row.ending⟩ :: below := by
  have chained := chained_ofText t
  rw [parts] at chained
  have settled : ∀ other ∈ above ++ row :: below, other.settle = other := by
    intro other member
    rw [← parts] at member
    exact settle_ofText member
  have related : List.Forall₂ (Becomes ['\n']) (above ++ row :: below)
      (above ++ ⟨text, row.ending⟩ :: below) := by
    have same : ∀ rows, List.Forall₂ (Becomes ['\n']) rows rows :=
      fun rows => List.forall₂_same.mpr fun other _ => .refl _ other
    exact List.rel_append (same above) (.cons ⟨fun _ => clean, Or.inl rfl⟩ (same below))
  rw [ofText_flat (chained.of_becomes related (Or.inl rfl)), List.map_append, List.map_cons]
  have kept : settle ⟨text, row.ending⟩ = ⟨text, row.ending⟩ := by
    have stays := not_of_settle (settled row (by simp))
    rw [settle, if_neg]
    exact fun feed => stays ⟨feed.1, ends feed.2⟩
  have same : ∀ rows : List Row, (∀ other ∈ rows, other ∈ above ++ row :: below) →
      rows.map settle = rows :=
    fun rows members => (List.map_congr_left fun other member => settled other
      (members other member)).trans (List.map_id _)
  rw [kept, same above fun other member => by simp [member],
    same below fun other member => by simp [member]]

theorem Document.lineAt_replaced {t text : Text} {above below : List Row} {row : Row}
    (lineBreak : LineBreak) (parts : Row.ofText t = above ++ row :: below) (some_text : text ≠ [])
    (clean : '\n' ∉ text) (ends : text.getLast? = some '\r' → row.text.getLast? = some '\r') :
    (ofText (Row.flat (above ++ ⟨text, row.ending⟩ :: below)) lineBreak).lineAt
        (Row.flat above).size = lineBelow above ⟨text, row.ending⟩ := by
  apply lineAt_of_rows (Row.ofText_replaced parts clean ends)
  · have some_bytes := Text.size_pos some_text
    exact ⟨Nat.le_refl _, Or.inr (by dsimp only; omega)⟩
  · rw [Row.flat_append, Text.size_append]
    exact Nat.le_add_right _ _

theorem ChangeSet.ofChanges_single {c : Change} {size : Nat} {set : ChangeSet}
    (made : ofChanges [c] size = .ok set) (effective : c.isNoop = false) : set = ⟨[c], size⟩ := by
  obtain ⟨changes, size_eq, -⟩ := ofChanges_ok made
  obtain ⟨changes', size'⟩ := set
  have only : changes' = [c] := by simpa [effective, dropRepeats] using changes
  rw [only]
  exact congrArg _ size_eq

namespace Text

variable {lead m rest insert : Text}

theorem single_indented (single : '\n' ∉ lead ++ m ++ rest)
    (indent : ∀ c ∈ insert, isIndent c = true) : '\n' ∉ lead ++ insert ++ rest := by
  simp only [List.mem_append, not_or] at single ⊢
  exact ⟨⟨single.1.1, fun member => nomatch indent _ member⟩, single.2⟩

theorem return_of_indented (some_text : insert ≠ []) (indent : ∀ c ∈ insert, isIndent c = true)
    (last : (lead ++ insert ++ rest).getLast? = some '\r') :
    (lead ++ m ++ rest).getLast? = some '\r' := by
  cases rest with
  | nil =>
    rw [List.append_nil, List.getLast?_append_of_ne_nil _ some_text] at last
    cases indent _ (List.mem_of_getLast? last)
  | cons c rest =>
    rw [List.getLast?_append_of_ne_nil _ (List.cons_ne_nil c rest)] at last ⊢
    exact last

end Text

/-- Indentation put in on a line makes the next state, in which the line holds it between what stays
in front and behind. -/
theorem EditState.line_replaced {s : EditState} {t : Transaction} {pos : Nat}
    {lead m rest insert : Text} (coherent : s.Coherent) (inside : pos ≤ s.doc.size)
    (text : (s.doc.lineAt pos).text = lead ++ m ++ rest) (some_text : insert ≠ [])
    (indent : ∀ c ∈ insert, isIndent c = true)
    (changes : t.changes = ⟨[⟨(s.doc.lineAt pos).start + lead.size,
      (s.doc.lineAt pos).start + (lead.size + m.size), insert⟩], s.doc.size⟩) :
    ∃ s' above below, s.next? t = some s' ∧ (s.doc.lineAt pos).start = above.size ∧
      s.text = above ++ (s.doc.lineAt pos).text ++ below ∧
      (s'.doc.lineAt above.size).text = lead ++ insert ++ rest ∧
      (s'.doc.lineAt above.size).start = above.size ∧
      s'.text = above ++ (s'.doc.lineAt above.size).text ++ below := by
  obtain ⟨above, row, below, rows, -, line⟩ := Document.exists_row s.doc.lineBreak inside
  have line : s.doc.lineAt pos = Document.lineBelow above row := (coherent.lineAt pos).trans line
  have row_text : row.text = lead ++ m ++ rest := by
    rw [← text, line]
    rfl
  rw [line] at changes ⊢
  have flat_parts : s.text = Row.flat above ++ row.text ++ (row.ending ++ Row.flat below) := by
    rw [← Row.flat_ofText s.text]
    exact (congrArg Row.flat rows).trans (by simp)
  have parts : s.text = (Row.flat above ++ lead) ++ m ++ (rest ++ (row.ending ++ Row.flat below)) := by
    rw [flat_parts, row_text]
    simp only [List.append_assoc]
  have applied : t.changes.applyTo? s.text = some ((Row.flat above ++ lead) ++ insert ++
      (rest ++ (row.ending ++ Row.flat below))) := by
    have made := ChangeSet.applyTo?_replace (Row.flat above ++ lead) m
      (rest ++ (row.ending ++ Row.flat below)) insert
    rw [← parts, Text.size_append, Nat.add_assoc] at made
    rw [changes]
    exact made
  obtain ⟨s', next, text', -⟩ := EditState.exists_next? (congrArg ChangeSet.size changes) applied
  have clean : '\n' ∉ lead ++ insert ++ rest := by
    obtain ⟨_, _, _, lies, _⟩ := coherent.lies_lineAt inside
    have single := lies.single
    rw [text] at single
    exact Text.single_indented single indent
  have ends : (lead ++ insert ++ rest).getLast? = some '\r' → row.text.getLast? = some '\r' := by
    rw [row_text]
    exact Text.return_of_indented some_text indent
  have flat' : s'.text = Row.flat (above ++ ⟨lead ++ insert ++ rest, row.ending⟩ :: below) := by
    rw [text']
    simp
  have line' : s'.doc.lineAt (Row.flat above).size =
      Document.lineBelow above ⟨lead ++ insert ++ rest, row.ending⟩ := by
    have doc' := (EditState.next?_changed (congrArg ChangeSet.size changes) next).2.1
    rw [doc', flat']
    exact Document.lineAt_replaced _ rows (by simp [some_text]) clean ends
  refine ⟨s', Row.flat above, row.ending ++ Row.flat below, next, rfl, flat_parts, ?_⟩
  rw [line']
  refine ⟨rfl, rfl, ?_⟩
  rw [flat']
  simp [Document.lineBelow]

namespace Frame.On

variable {f : Frame} {l : Line} {lead glyphs tail : Text} {tab : Nat}

theorem columnAt_start (on : f.On l lead glyphs tail) :
    l.text.columnAt tab f.start = Text.advance (max tab 1) 0 lead := by
  rw [Text.columnAt, on.text, on.start, Text.takeBytes_left]

theorem columnAt_stop (on : f.On l lead glyphs tail) : l.text.columnAt tab f.stop =
    Text.advance (max tab 1) (Text.advance (max tab 1) 0 lead) (glyphs ++ f.after) := by
  have column := Text.columnAt_append lead (glyphs ++ f.after) tail tab 0
  rwa [Nat.add_zero, Text.size_append glyphs, ← on.stop, Text.takeBytes_zero, List.append_assoc,
    List.append_assoc, ← on.text] at column

end Frame.On

namespace Backspace

variable {s : EditState} {pos : Nat} {f : Frame} {lead glyphs rest : Text} {t : Transaction}

/-- The blanks in place of a marker reach from the column of the marker to the one it ends in. -/
theorem blankMarker_eq (coherent : s.Coherent) (inside : pos ≤ s.doc.size)
    (found : frame? s pos = some f) (item : f.item.isSome = true) {l : Line}
    (on : f.On l lead glyphs rest) : ∃ insert,
      blankMarker s l f (l.start + f.start) =
        ⟨[⟨l.start + f.start, l.start + f.stop, insert⟩],
          Range.caret (l.start + f.start + insert.size)⟩ ∧
      insert ≠ [] ∧ (∀ c ∈ insert, isIndent c = true) ∧
      Text.advance (max s.settings.tabSize 1) (Text.advance (max s.settings.tabSize 1) 0 lead)
          insert =
        Text.advance (max s.settings.tabSize 1) (Text.advance (max s.settings.tabSize 1) 0 lead)
          (glyphs ++ f.after) := by
  have some_tab : 0 < max s.settings.tabSize 1 := by omega
  have none_before := (frame?_around coherent found).before_eq_nil coherent
  have no_quote := not_quote_of_item coherent inside found item
  generalize first_eq : Text.advance (max s.settings.tabSize 1) 0 lead = first
  generalize last_eq :
    Text.advance (max s.settings.tabSize 1) first (glyphs ++ f.after) = last
  have start : l.text.columnAt s.settings.tabSize f.start = first := on.columnAt_start.trans first_eq
  have stop : l.text.columnAt s.settings.tabSize f.stop = last := by
    rw [on.columnAt_stop, first_eq, last_eq]
  have wider : first < last := by
    obtain ⟨c, member, -⟩ := on.visible
    rw [← last_eq]
    exact Text.lt_advance some_tab _ (List.ne_nil_of_mem (List.mem_append_left _ member))
  have blank : f.blank (some (last - first)) true = Text.spaces (last - first) := by
    simp [Frame.blank, none_before, no_quote]
  have reach : first + (last - first) = last := by omega
  unfold blankMarker
  dsimp only
  rw [start, stop, blank]
  split
  · -- at the start of the line the blanks may be written as tabs
    rename_i at_start
    have none_lead : lead = [] := Text.size_eq_zero_iff.mp (by rw [← on.start]; omega)
    rw [none_lead] at first_eq
    have zero : first = 0 := first_eq.symm
    obtain ⟨columns, indent⟩ := Text.advance_normalizeIndent s.settings (last - first)
    refine ⟨_, rfl, ?_, indent, ?_⟩
    · intro nothing
      rw [nothing] at columns
      change 0 = last - first at columns
      omega
    · rw [zero, Nat.sub_zero] at columns ⊢
      exact columns
  · refine ⟨_, rfl, ?_, ?_, ?_⟩
    · intro nothing
      have sizes := congrArg Text.size nothing
      rw [Text.size_spaces, Text.size_nil] at sizes
      omega
    · intro c member
      rw [Text.mem_spaces member]
      rfl
    · rw [Text.advance_spaces, reach]

/-- Blanks that Backspace puts in take the place of the marker of an item on the caret's line. The
rest of the line stays, and stays in its columns. -/
theorem blanks_keep_columns (reached : s.Reachable)
    (only : s.selection.ranges = [Range.caret pos]) (made : run s = .ok t)
    (blanks : ∃ c ∈ t.changes.changes, c.insert ≠ []) :
    ∃ f s' insert above lead marker rest below, frame? s pos = some f ∧ f.item.isSome = true ∧
      s.next? t = some s' ∧ t.changes.changes =
        [⟨(s.doc.lineAt pos).start + f.start, (s.doc.lineAt pos).start + f.stop, insert⟩] ∧
      (∀ c ∈ insert, c = ' ' ∨ c = '\t') ∧
      (s.doc.lineAt pos).text = lead ++ marker ++ rest ∧ lead.size = f.start ∧
      lead.size + marker.size = f.stop ∧ (s.doc.lineAt pos).start = above.size ∧
      s.text = above ++ (s.doc.lineAt pos).text ++ below ∧
      (s'.doc.lineAt above.size).text = lead ++ insert ++ rest ∧
      (s'.doc.lineAt above.size).start = above.size ∧
      s'.text = above ++ (s'.doc.lineAt above.size).text ++ below ∧
      ∀ n, (s'.doc.lineAt above.size).text.columnAt s.settings.tabSize
          (f.start + insert.size + n) =
        (s.doc.lineAt pos).text.columnAt s.settings.tabSize (f.stop + n) := by
  have coherent := reached.coherent
  have member : Range.caret pos ∈ s.selection.ranges := by
    rw [only]
    exact List.mem_singleton_self _
  have inside : pos ≤ s.doc.size := (coherent.inside _ member).2
  obtain ⟨e, edited, alone⟩ := Transaction.byRange_only made only
  have accepted := Transaction.ofEdits_ok alone
  rw [List.flatMap_singleton] at accepted
  have makes := edit_makes coherent (coherent.inside _ member) (Refusal.ok_of_mapError edited)
  cases makes with
  | takes low high =>
    obtain ⟨c, put, some_text⟩ := blanks
    have same := List.mem_singleton.mp ((ChangeSet.mem_ofChanges accepted).mp put).1
    exact absurd (congrArg Change.insert same) some_text
  | @blanks f lead glyphs rest found item on column =>
    obtain ⟨insert, edit_eq, some_text, indent, columns⟩ :=
      blankMarker_eq coherent inside found item on
    rw [edit_eq] at accepted
    have noop : (⟨(s.doc.lineAt pos).start + f.start, (s.doc.lineAt pos).start + f.stop,
        insert⟩ : Change).isNoop = false := by
      simp [Change.isNoop, some_text]
    have text : (s.doc.lineAt pos).text = lead ++ (glyphs ++ f.after) ++ rest := on.text_eq.1
    have stop : f.stop = lead.size + (glyphs ++ f.after).size := by
      rw [on.stop, Text.size_append]
    have changes : t.changes = ⟨[⟨(s.doc.lineAt pos).start + f.start,
        (s.doc.lineAt pos).start + f.stop, insert⟩], s.doc.size⟩ :=
      ChangeSet.ofChanges_single accepted noop
    rw [on.start, stop] at changes
    obtain ⟨s', above, below, next, start, parts, line', start', text'⟩ :=
      EditState.line_replaced coherent inside text some_text indent changes
    refine ⟨f, s', insert, above, lead, glyphs ++ f.after, rest, below, found, item, next, ?_, ?_, text,
      on.start.symm, stop.symm, start, parts, line', start', text', ?_⟩
    · rw [changes, on.start, stop]
    · intro c member
      simpa [isIndent] using indent c member
    · intro n
      rw [line', text, on.start, stop, Text.columnAt_append, Text.columnAt_append, columns]

def tabbedItem : EditState :=
  .ofText ['1', '.', ' ', 'a', '\t', 'b'] (Selection.caret 3) { indentUnit := .tab, tabSize := 2 }

theorem tabbedItem_keeps_columns : ∃ t s', run tabbedItem = .ok t ∧
    t.changes.changes = [⟨0, 3, ['\t', ' ']⟩] ∧ tabbedItem.next? t = some s' ∧
    (tabbedItem.doc.lineAt 3).text.columnAt 2 5 = 6 ∧ (s'.doc.lineAt 0).text.columnAt 2 4 = 6 := by
  have made : run tabbedItem =
      .ok ⟨⟨[⟨0, 3, ['\t', ' ']⟩], 6⟩, some (Selection.caret 2)⟩ := by cbv
  have only : tabbedItem.selection.ranges = [Range.caret 3] := by cbv
  have reached : tabbedItem.Reachable := .ofText _ _ _
  obtain ⟨f, s', insert, above, -, -, -, -, -, -, next, changes, -, -, -, -, start, -, -, -, -,
    columns⟩ := blanks_keep_columns reached only made ⟨_, List.mem_singleton_self _, by simp⟩
  have line : (tabbedItem.doc.lineAt 3).start = 0 := by cbv
  have column : (tabbedItem.doc.lineAt 3).text.columnAt 2 5 = 6 := by cbv
  rw [line, Nat.zero_add, Nat.zero_add] at changes
  obtain ⟨first, last, rfl⟩ := Change.mk.inj (List.cons.inj changes).1
  have same := columns 2
  rw [← first, ← last, ← start, line] at same
  exact ⟨_, s', made, rfl, next, column, same.trans column⟩

end Backspace

end MarkdownEditing

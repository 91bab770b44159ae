import MarkdownEditing.Proofs.Edit.Compile
import MarkdownEditing.Proofs.Markup.NextMarker
import MarkdownEditing.Proofs.Markup.SplitLine

namespace MarkdownEditing

namespace Text

variable {a b held blank rest front mark tail : Text} {c : Char}

theorem held_of_visible (parts : held ++ blank ++ rest = front ++ tail)
    (reach : front.size ≤ (held ++ blank).size) (white : ∀ c ∈ blank, isWhite c = true)
    (last : front.getLast? = some c) (visible : isWhite c = false) :
    ∃ more, held = front ++ more := by
  rw [List.append_assoc] at parts
  rcases List.append_eq_append_iff.mp parts with ⟨mid, rfl, behind⟩ | ⟨more, rfl, _⟩
  · rcases List.eq_nil_or_concat mid with rfl | ⟨mid, d, rfl⟩
    · exact ⟨[], by simp⟩
    · rw [List.concat_eq_append] at last behind reach
      rw [← List.append_assoc, List.getLast?_concat] at last
      cases last
      -- the last character of `front` would be among the white ones
      have member : c ∈ blank := by
        rcases List.append_eq_append_iff.mp behind with ⟨further, same, _⟩ | ⟨more, rfl, _⟩
        · have sizes := congrArg size same
          simp only [size_append] at sizes reach
          have none_left : further = [] := size_eq_zero_iff.mp (by omega)
          rw [none_left, List.append_nil] at same
          simp [← same]
        · simp
      rw [white c member] at visible
      cases visible
  · exact ⟨more, rfl⟩

end Text

namespace Document

variable {t a m b : Text} {lineBreak : LineBreak}

theorem lineAt_start_of_break (parts : t = a ++ m ++ b) (ends : a.getLast? = some '\n')
    (single : '\n' ∉ m) : ((ofText t lineBreak).lineAt (a ++ m).size).start = a.size := by
  have inside : (a ++ m).size ≤ t.size := by
    rw [parts, Text.size_append _ b]
    omega
  have low := @lineAt_start_le t lineBreak _ a m b parts single (Nat.le_of_eq (Text.size_append a m))
  obtain ⟨before, after, whole, lies, reaches, _⟩ := @lineAt_lies t lineBreak _ inside
  generalize (ofText t lineBreak).lineAt (a ++ m).size = l at *
  rw [parts, List.append_assoc] at whole
  have reach : l.Reaches after a.size := by
    have size := Text.size_append a m
    refine ⟨low, ?_⟩
    rcases reaches.2 with within | ⟨crlf, behind⟩
    · exact Or.inl (by omega)
    · by_cases before_stop : a.size ≤ l.stop
      · exact Or.inl before_stop
      · exact Or.inr ⟨crlf, by omega⟩
  rcases lies.cut_cases whole.symm reach with ⟨u, v, split, text, _⟩ | ⟨_, split, _⟩
  · rcases List.eq_nil_or_concat u with rfl | ⟨u, d, rfl⟩
    · rw [lies.start, split, List.append_nil]
    · rw [split, List.concat_eq_append, ← List.append_assoc, List.getLast?_concat] at ends
      cases ends
      exact absurd (by simp [text]) lies.single
  · rw [split, List.getLast?_concat] at ends
    cases ends

end Document

namespace Enter

open Text (Breaks BeginsWord)
open Stack (empty)
open Token (scan)

variable {s s' : EditState} {t : Transaction} {r : Range} {x : Site} {item : Place}
  {before held blank rest after : Text}

namespace Site

theorem isContinued_eq_false (shown : x.inner.item = some item) (first : x.line.start ≤ item.start) :
    x.isContinued = false := by
  rw [isContinued, shown]
  exact decide_eq_false (Nat.not_lt.mpr first)

theorem Divides.column_eq (divides : x.Divides s before held blank rest after) :
    x.column = (held ++ blank).size ∧ x.line.text.dropBytes x.column = rest := by
  have column : x.column = (held ++ blank).size := by
    rw [Site.column, divides.pos, divides.lies.start]
    omega
  exact ⟨column, by rw [column, divides.line, Text.dropBytes_left]⟩

theorem Divides.newline_not_mem_rest (divides : x.Divides s before held blank rest after) :
    '\n' ∉ rest := by
  intro member
  apply divides.lies.single
  rw [divides.line]
  exact List.mem_append_right _ member

theorem Divides.after_eq_nil (divides : x.Divides s before held blank rest after)
    (bottom : x.line.stop = s.text.size) : after = [] := by
  have stop := divides.lies.stop
  have size := congrArg Text.size divides.text
  rw [← divides.line] at size
  simp only [Text.size_append] at size
  exact Text.size_eq_zero_iff.mp (by omega)

def kept (x : Site) (s : EditState) : Text := s.text.takeBytes x.trimStop

theorem Divides.kept_eq (divides : x.Divides s before held blank rest after) :
    x.kept s = before ++ held := by
  have parts : s.text = before ++ held ++ (blank ++ rest ++ after) := by
    rw [divides.text]
    simp only [List.append_assoc]
  rw [kept, divides.trimStop, ← Text.size_append, parts, Text.takeBytes_left]

/-- The innermost frame is the one of an item, whose mark stays in front of the split. -/
theorem item_mark (coherent : s.Coherent) (sound : x.Sound s) (shown : x.inner.item = some item)
    (first : x.line.start ≤ item.start) (behind : x.inner.stop ≤ x.column)
    (divides : x.Divides s before held blank rest after) :
    ∃ (style : ListStyle) (above mark more : Text), x.inner.node.kind = style.listKind ∧
      style.Marks mark ∧ x.inner.MarksNext s.doc item style.glyph ∧
      x.kept s = above ++ (mark ++ more) ∧ item.start = above.size := by
  obtain ⟨p, inside, isNode, frame, starts⟩ := sound.inner
  obtain ⟨rfl, listItem, parent⟩ := Frame.item_of_ofNode? frame shown
  obtain ⟨_, _, _, _, _, stable⟩ := coherent.lies_lineAt sound.inside
  have line : s.doc.lineAt item.start = x.line := by
    rw [sound.line] at first ⊢
    exact stable item.start first (starts (Or.inr listItem))
  rw [coherent.doc] at frame
  obtain ⟨list, style, lead, mark, tail, parent', kind, marks, text, start, stop, next⟩ :=
    Frame.marks_next inside isNode listItem frame
  rw [parent] at parent'
  cases parent'
  rw [← coherent.lineAt, line] at text start
  rw [← coherent.doc] at next
  have visible : isWhite style.glyph = false := by cases style <;> rfl
  have last : (lead ++ mark).getLast? = some style.glyph := by
    rw [List.getLast?_append_of_ne_nil _ marks.isItemMarker.ne_nil, marks.getLast?]
  obtain ⟨column, _⟩ := divides.column_eq
  have size := Text.size_append lead mark
  have parts : held ++ blank ++ rest = lead ++ mark ++ tail := by
    rw [← divides.line, text, List.append_assoc]
  obtain ⟨more, same⟩ := Text.held_of_visible parts (by omega) divides.white last visible
  refine ⟨style, before ++ lead, mark, more, kind, marks, next, ?_, ?_⟩
  · rw [divides.kept_eq, same]
    simp only [List.append_assoc]
  · rw [Text.size_append, ← divides.lies.start]
    exact start.symm

theorem Divides.breaks_or_beginsWord (divides : x.Divides s before held blank rest after)
    (word : ∀ c ∈ rest.head?, isWordChar c = true ∧ c.isDigit = false) {later : Text}
    (none_left : rest ++ after = [] → later = [])
    (keeps : ∀ m w, rest ++ after = m ++ w → (∀ c ∈ m, c.isDigit = false) → ∃ w', later = m ++ w') :
    rest = [] ∧ later.Breaks ∨ rest ≠ [] ∧ later.BeginsWord := by
  cases rest with
  | nil =>
    refine Or.inl ⟨rfl, ?_⟩
    rcases divides.lies.closes with rfl | ⟨w, rfl, _⟩ | ⟨w, rfl⟩
    · exact Or.inl (none_left rfl)
    · obtain ⟨w', rfl⟩ := keeps ['\n'] w rfl (by simp [Char.isDigit])
      exact Or.inr (Or.inl ⟨w', rfl⟩)
    · obtain ⟨w', rfl⟩ := keeps ['\r', '\n'] w rfl (by simp [Char.isDigit])
      exact Or.inr (Or.inr ⟨w', rfl⟩)
  | cons c rest =>
    obtain ⟨here, plain⟩ := word c rfl
    obtain ⟨w', rfl⟩ := keeps [c] (rest ++ after) rfl (List.forall_mem_singleton.mpr plain)
    exact Or.inr ⟨List.cons_ne_nil _ _, c, w', rfl, here⟩

/-- The text after a single split: what is in front of it, a line break, quote marks and blanks, the
marker of the next item, with the caret behind it, and then the end of the line or a word. -/
structure NewLine (x : Site) (s s' : EditState) (front later : Text) : Prop where
  text : s'.text = x.kept s ++ s.lineBreak ++ (front ++ (x.inner.marker s.doc 1 ++ later))
  lead : (x.lead s).normalizeIndent s.settings = front ++ x.inner.marker s.doc 1
  markup : ∀ c ∈ front, c = '>' ∨ isIndent c = true
  caret : s'.selection.ranges =
    [Range.caret (x.kept s ++ s.lineBreak ++ (front ++ x.inner.marker s.doc 1)).size]
  follows : x.line.text.dropBytes x.column = [] ∧ later.Breaks ∨
    x.line.text.dropBytes x.column ≠ [] ∧ later.BeginsWord

end Site

/-- What the new line needs for its marker to begin the next item: a number that still has nine
digits, a space between the marker and what follows it, and in front of the marker what takes the
line out of the item and leaves it inside the containers around the list. -/
structure Rejoins (s : EditState) (x : Site) (item : Place) : Prop where
  number : x.inner.isOrdered = true →
    ∀ n, s.doc.numberAt? item.start = some n → n + 1 < ItemNumber.limit
  spaced : x.inner.after ≠ [] ∨ x.line.text.dropBytes x.column = []
  placed : ∃ outer style column,
    (empty.lines (scan (x.kept s ++ s.lineBreak))).OpenItem outer style column item.start ∧
      Continuation.Arrives outer column (scan ((x.lead s).normalizeIndent s.settings))
        (scan (x.inner.marker s.doc 1))

theorem SplitsLines.of_single (coherent : s.Coherent) (only : s.selection.ranges = [r])
    (found : site s r = .ok x) (filled : x.isEmptyLine = false) (made : run s = .ok t) :
    SplitsLines s t := by
  refine ⟨coherent, made, fun r' member y there => ?_⟩
  rw [only, List.mem_singleton] at member
  rw [member, found] at there
  cases there
  exact filled

theorem SplitsLines.next?_isSome (splits : SplitsLines s t) : ∃ s', s.next? t = some s' := by
  refine EditState.next?_isSome (Transaction.fits_byRange splits.made).1 fun c member => ?_
  obtain ⟨⟨r, range, e, edited, inside⟩, _⟩ := (Transaction.mem_byRange splits.made).mp member
  obtain ⟨x, found, sound, at_site⟩ := edit_site splits.coherent range edited
  rw [editAt_filled (splits.filled r range x found)] at at_site
  exact ((split_changes splits.coherent sound at_site).1 c inside).whole

/-- A caret on the first line of its item, behind the marker, makes a new line with a marker. -/
theorem newLine_of_single (splits : SplitsLines s t) (only : s.selection.ranges = [r])
    (found : site s r = .ok x) (divides : x.Divides s before held blank rest after)
    (fresh : x.isContinued = false) {glyph : Char} (marker : x.inner.MarksNext s.doc item glyph)
    (word : ∀ c ∈ (x.line.text.dropBytes x.column).head?, isWordChar c = true ∧ c.isDigit = false)
    (next : s.next? t = some s') : ∃ front later, x.NewLine s s' front later := by
  obtain ⟨c, u, shape, visible, _⟩ := marker.marker_head
  have head : (x.inner.marker s.doc 1).head? = some c := by rw [shape]; rfl
  obtain ⟨front, lead, markup⟩ := lead_ends found fresh head visible
  obtain ⟨applied, _⟩ := EditState.next?_changed (Transaction.fits_byRange splits.made).1 next
  obtain ⟨later, text, none_left, keeps⟩ := Site.text_of_single splits only found divides applied
  have caret := Site.caret_of_single splits only found divides next
  have insert : (x.lineSplit s).insert = s.lineBreak ++ (front ++ x.inner.marker s.doc 1) := by
    rw [Site.lineSplit, lead]
  rw [insert] at text caret
  refine ⟨front, later, ?_, lead, markup, ?_, ?_⟩
  · rw [text, divides.kept_eq]
    simp only [List.append_assoc]
  · rw [caret, divides.kept_eq]
    simp only [List.append_assoc]
  · rw [divides.column_eq.2] at word ⊢
    exact divides.breaks_or_beginsWord word none_left keeps

namespace Site.NewLine

variable {front later : Text} {style : ListStyle}

theorem breaks_iff (line : x.NewLine s s' front later) :
    later.Breaks ↔ x.line.text.dropBytes x.column = [] := by
  rcases line.follows with ⟨none_left, breaks⟩ | ⟨some_left, begins⟩
  · exact iff_of_true breaks none_left
  · exact iff_of_false begins.not_breaks some_left

theorem kept_ends (x : Site) (s : EditState) : (x.kept s ++ s.lineBreak).getLast? = some '\n' := by
  cases lineBreak : s.doc.lineBreak <;> simp [EditState.lineBreak, lineBreak, LineBreak.text]

theorem lineAt_start (line : x.NewLine s s' front later) (coherent : s'.Coherent)
    (marker : x.inner.MarksNext s.doc item style.glyph) :
    (s'.doc.lineAt (x.kept s ++ s.lineBreak ++ (front ++ x.inner.marker s.doc 1)).size).start =
      (x.kept s ++ s.lineBreak).size := by
  have parts : s'.text = x.kept s ++ s.lineBreak ++ (front ++ x.inner.marker s.doc 1) ++ later := by
    rw [line.text]
    simp only [List.append_assoc]
  have single : '\n' ∉ front ++ x.inner.marker s.doc 1 := by
    intro member
    rcases List.mem_append.mp member with quote | in_marker
    · rcases line.markup _ quote with same | indent
      · cases same
      · cases indent
    · exact (marker.marker_no_line_break _ in_marker).1 rfl
  rw [coherent.lineAt]
  exact Document.lineAt_start_of_break parts (kept_ends x s) single

/-- The item whose mark is in front of the split has the new one as its next sibling exactly when
the new line rejoins its list. -/
theorem sibling_iff (line : x.NewLine s s' front later)
    (kind : x.inner.node.kind = style.listKind) {above mark more : Text} (marks : style.Marks mark)
    (marker : x.inner.MarksNext s.doc item style.glyph)
    (kept : x.kept s = above ++ (mark ++ more)) (start : item.start = above.size) :
    (∃ list p q : Place, list.In (Tree.ofText s'.text) ∧ list.kind = x.inner.node.kind ∧
        p ∈ list.items ∧ p.start = item.start ∧ p.followingItems.head? = some q ∧
        (x.kept s ++ s.lineBreak).size ≤ q.start ∧
        q.start < (x.kept s ++ s.lineBreak).size + (front ++ x.inner.marker s.doc 1).size ∧
        (x.kept s ++ s.lineBreak).size + (front ++ x.inner.marker s.doc 1).size ≤ q.stop) ↔
      Rejoins s x item := by
  obtain ⟨c, u, shape, visible, _⟩ := marker.marker_head
  obtain ⟨content, content_line⟩ := marker.marker_content later
  have follows : later.Breaks ∨ later.BeginsWord := line.follows.imp And.right And.right
  have in_kept : item.start < (x.kept s ++ s.lineBreak).size := by
    have some_bytes := Text.size_pos marks.isItemMarker.ne_nil
    rw [kept, start]
    simp only [Text.size_append]
    omega
  have kinds : ∀ style' : ListStyle, style'.glyph = style.glyph ∧
      (x.inner.isOrdered = true →
        ∀ n, s.doc.numberAt? item.start = some n → n + 1 < ItemNumber.limit) ∧
      (x.inner.after ≠ [] ∨ later.Breaks) → style'.listKind = x.inner.node.kind := by
    rintro style' ⟨same, _⟩
    rw [ListStyle.glyph_injective same, kind]
  rw [line.text, Tree.rejoins_iff (kept_ends x s) in_kept line.markup
    ⟨c, by rw [shape]; rfl, visible⟩ marker.marker_no_line_break content content_line
      (marker.begins_iff follows)
    kinds, line.breaks_iff, ← line.lead]
  constructor
  · rintro ⟨outer, style', column, opened, arrives, _, number, spaced⟩
    exact ⟨number, spaced, outer, style', column, opened, arrives⟩
  · rintro ⟨number, spaced, outer, style', column, opened, arrives⟩
    have same : style' = style := by
      have here := opened
      rw [kept, List.append_assoc, List.append_assoc, start] at here
      exact here.style_eq marks
    exact ⟨outer, style', column, opened, arrives, by rw [same], number, spaced⟩

end Site.NewLine

/-- Enter with one caret on the first line of an item, behind its marker and before a word or the end
of the line, gives a text in whose tree the new line begins the next sibling of the item, in a list
of the same kind and with the caret in it, exactly when the new marker stands where it can be one. -/
theorem splits_item_iff {pos : Nat} (coherent : s.Coherent)
    (only : s.selection.ranges = [Range.caret pos]) (found : site s (Range.caret pos) = .ok x)
    (shown : x.inner.item = some item) (first : x.line.start ≤ item.start)
    (behind : x.inner.stop ≤ x.column) (filled : x.isEmptyLine = false)
    (word : ∀ c ∈ (x.line.text.dropBytes x.column).head?, isWordChar c = true ∧ c.isDigit = false)
    (made : run s = .ok t) :
    ∃ s', s.next? t = some s' ∧
      ((∃ (caret : Nat) (list p q : Place), s'.selection.ranges = [Range.caret caret] ∧
          list.In s'.tree ∧ list.kind = x.inner.node.kind ∧ p ∈ list.items ∧
          p.start = item.start ∧ p.followingItems.head? = some q ∧
          (s'.doc.lineAt caret).start ≤ q.start ∧ q.start < caret ∧ caret ≤ q.stop) ↔
        Rejoins s x item) := by
  have splits := SplitsLines.of_single coherent only found filled made
  obtain ⟨s', next⟩ := splits.next?_isSome
  refine ⟨s', next, ?_⟩
  have range : Range.caret pos ∈ s.selection.ranges := by
    rw [only]
    exact List.mem_singleton_self _
  obtain ⟨sound, _⟩ := site_edit coherent made range found
  obtain ⟨e, _, split⟩ := splits.exists_edit range found
  obtain ⟨before, held, blank, rest, after, divides⟩ := split_divides coherent sound split
  obtain ⟨style, above, mark, more, kind, marks, marker, kept, start⟩ :=
    Site.item_mark coherent sound shown first behind divides
  obtain ⟨front, later, line⟩ := newLine_of_single splits only found divides
    (Site.isContinued_eq_false shown first) marker word next
  have coherent' := coherent.next next
  have begun := line.lineAt_start coherent' marker
  have size := Text.size_append (x.kept s ++ s.lineBreak) (front ++ x.inner.marker s.doc 1)
  rw [← line.sibling_iff kind marks marker kept start, coherent'.tree, ← size, line.caret]
  constructor
  · rintro ⟨caret, list, p, q, ranges, sibling⟩
    cases ranges
    rw [begun] at sibling
    exact ⟨list, p, q, sibling⟩
  · rintro ⟨list, p, q, sibling⟩
    refine ⟨_, list, p, q, rfl, ?_⟩
    rw [begun]
    exact sibling

def quotedItem : EditState :=
  .ofText ['>', ' ', '1', '.', ' ', 'a', 'b'] (Selection.caret 6) {}

/-- The end of the word becomes a second item in the quote. -/
theorem quotedItem_splits : ∃ t s' item, run quotedItem = .ok t ∧ quotedItem.next? t = some s' ∧
    (site quotedItem (Range.caret 6)).map (·.inner.item) = .ok (some item) ∧
    ∃ (caret : Nat) (list p q : Place), s'.selection.ranges = [Range.caret caret] ∧
      list.In s'.tree ∧ list.kind = .orderedList ∧ p ∈ list.items ∧
      p.start = item.start ∧ p.followingItems.head? = some q ∧
      (s'.doc.lineAt caret).start ≤ q.start ∧ q.start < caret ∧ caret ≤ q.stop := by
  have made : run quotedItem = .ok
      ⟨⟨[⟨6, 6, ['\n', '>', ' ', '2', '.', ' ']⟩], 7⟩, some (Selection.caret 12)⟩ := by cbv
  have coherent : quotedItem.Coherent := EditState.coherent_ofText _ _ _
  have only : quotedItem.selection.ranges = [Range.caret 6] := by cbv
  have place : (site quotedItem (Range.caret 6)).map (fun x => (x.inner.item.map Place.start,
      x.inner.node.kind, x.line.start, x.inner.stop, x.column, x.isEmptyLine, x.inner.after)) =
      .ok (some 2, .orderedList, 0, 5, 6, false, [' ']) := by cbv
  have texts : (site quotedItem (Range.caret 6)).map (fun x => (x.line.text.dropBytes x.column,
      x.kept quotedItem, (x.lead quotedItem).normalizeIndent quotedItem.settings,
      x.inner.marker quotedItem.doc 1)) =
      .ok (['b'], ['>', ' ', '1', '.', ' ', 'a'], ['>', ' ', '2', '.', ' '], ['2', '.', ' ']) := by
    cbv
  have number : quotedItem.doc.numberAt? 2 = some 1 := rfl
  have opened :
      (empty.lines (scan ['>', ' ', '1', '.', ' ', 'a', '\n'])).OpenItem [.quote] .period 5 2 :=
    ⟨[], [], [.token .quoteMark [⟨.gt, ['>']⟩], .token .whitespace [⟨.whitespace, [' ']⟩]],
      [⟨.quote, []⟩], by cbv, rfl, rfl⟩
  have arrives : Continuation.Arrives [.quote] 5 (scan ['>', ' ', '2', '.', ' '])
      (scan ['2', '.', ' ']) := ⟨by cbv, by cbv, by cbv, by decide +kernel⟩
  obtain ⟨x, found, summary⟩ := site_of_map place
  simp only [Prod.mk.injEq] at summary
  obtain ⟨shown, kind, line, stop, column, filled, spaces⟩ := summary
  rw [found] at texts
  have texts := Except.ok.inj texts
  simp only [Prod.mk.injEq] at texts
  obtain ⟨word, kept, lead, marker⟩ := texts
  obtain ⟨item, shown, start⟩ := Option.map_eq_some_iff.mp shown
  obtain ⟨s', next, rejoins⟩ := splits_item_iff coherent only found shown
    (by omega) (by omega) filled (by rw [word]; rintro _ ⟨⟩; decide) made
  rw [kind] at rejoins
  refine ⟨_, s', item, made, next, by rw [found]; exact congrArg Except.ok shown,
    rejoins.mpr ⟨?_, ?_, ?_⟩⟩
  · intro _ n read
    rw [start, number] at read
    cases read
    decide
  · exact Or.inl (by simp [spaces])
  · refine ⟨[.quote], .period, 5, ?_, ?_⟩
    · rw [kept, start]
      exact opened
    · rw [lead, marker]
      exact arrives

def wideItem : EditState :=
  .ofText ['1', '.', ' ', ' ', ' ', ' ', 'a', 'b'] (Selection.caret 7) {}

/-- Enter can fail to begin an item: four spaces behind a number are taken for none, and the new
marker has no space behind it. -/
theorem loses_item : ¬∀ (s : EditState) (t : Transaction) (x : Site) (item : Place) (pos : Nat),
    s.Coherent → s.selection.ranges = [Range.caret pos] → site s (Range.caret pos) = .ok x →
    x.inner.item = some item → x.line.start ≤ item.start → x.inner.stop ≤ x.column →
    x.isEmptyLine = false →
    (∀ c ∈ (x.line.text.dropBytes x.column).head?, isWordChar c = true ∧ c.isDigit = false) →
    run s = .ok t → ∃ s', s.next? t = some s' ∧
      ∃ (caret : Nat) (list p q : Place), s'.selection.ranges = [Range.caret caret] ∧
        list.In s'.tree ∧ list.kind = x.inner.node.kind ∧ p ∈ list.items ∧
        p.start = item.start ∧ p.followingItems.head? = some q ∧
        (s'.doc.lineAt caret).start ≤ q.start ∧ q.start < caret ∧ caret ≤ q.stop := by
  intro all
  have made : run wideItem =
      .ok ⟨⟨[⟨7, 7, ['\n', '2', '.']⟩], 8⟩, some (Selection.caret 10)⟩ := by cbv
  have next : wideItem.next? ⟨⟨[⟨7, 7, ['\n', '2', '.']⟩], 8⟩, some (Selection.caret 10)⟩ =
      some (.ofText ['1', '.', ' ', ' ', ' ', ' ', 'a', '\n', '2', '.', 'b']
        (Selection.caret 10) {}) := by cbv
  have coherent : wideItem.Coherent := EditState.coherent_ofText _ _ _
  have only : wideItem.selection.ranges = [Range.caret 7] := by cbv
  have place : (site wideItem (Range.caret 7)).map (fun x => (x.inner.item.map Place.start,
      x.line.start, x.inner.stop, x.column, x.isEmptyLine, x.line.text.dropBytes x.column)) =
      .ok (some 0, 0, 2, 7, false, ['b']) := by cbv
  have marks : ((Place.root (Tree.ofText ['1', '.', ' ', ' ', ' ', ' ', 'a', '\n', '2', '.',
      'b'])).leaves.filter fun leaf => leaf.parent?.map (fun q => (q.kind, q.start)) ==
        some (.listItem, leaf.start)).map Place.start = [0] := by cbv
  obtain ⟨x, found, summary⟩ := site_of_map place
  simp only [Prod.mk.injEq] at summary
  obtain ⟨shown, line, stop, column, filled, word⟩ := summary
  obtain ⟨item, shown, start⟩ := Option.map_eq_some_iff.mp shown
  obtain ⟨s', next', caret, list, p, q, _, inside, _, member, _, following, _⟩ :=
    all wideItem _ x item 7 coherent only found shown (by omega) (by omega) filled
      (by rw [word]; rintro _ ⟨⟩; decide) made
  rw [next] at next'
  cases next'
  -- a later item would have its mark behind the first one
  obtain ⟨listed, later, _⟩ := inside.next_item member following
  obtain ⟨q_inside, isNode, listItem⟩ := inside.of_mem_items listed
  obtain ⟨leaf, leaf_member, child, begins, _⟩ := q_inside.item_mark ⟨isNode, listItem⟩
  have among : leaf.start ∈ [0] := by
    rw [← marks]
    refine List.mem_map_of_mem (List.mem_filter.mpr ⟨leaf_member, ?_⟩)
    rw [Place.parent?_of_mem_children child]
    simp [listItem, begins]
  rw [List.mem_singleton] at among
  omega

end Enter

end MarkdownEditing

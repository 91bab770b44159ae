import MarkdownEditing.Proofs.Syntax.MarkerLine

namespace MarkdownEditing

namespace IsItemMarker

variable {a b x y : Text}

theorem exists_digits (marker : IsItemMarker a) :
    ∃ digits c, a = digits ++ [c] ∧ (∀ d ∈ digits, d.isDigit = true) ∧ c.isDigit = false := by
  cases marker with
  | bullet c glyph =>
    refine ⟨[], c, rfl, by simp, ?_⟩
    rcases glyph with rfl | rfl | rfl <;> rfl
  | number digits c _ all glyph =>
    refine ⟨digits, c, rfl, List.all_eq_true.mp all, ?_⟩
    rcases glyph with rfl | rfl <;> rfl

/-- A text begins with at most one marker. -/
theorem unique (first : IsItemMarker a) (second : IsItemMarker b) (same : a ++ x = b ++ y) :
    a = b := by
  obtain ⟨digits, c, rfl, all, stops⟩ := first.exists_digits
  obtain ⟨digits', c', rfl, all', stops'⟩ := second.exists_digits
  rw [List.append_assoc, List.append_assoc, List.singleton_append, List.singleton_append] at same
  have taken := congrArg (List.takeWhile Char.isDigit) same
  rw [Text.takeWhile_stop all stops, Text.takeWhile_stop all' stops'] at taken
  subst taken
  rw [(List.cons.inj (List.append_cancel_left same)).1]

end IsItemMarker

namespace Continuation

variable {f g w : List Token} {outer inner : List Container} {style : ListStyle}
  {column column' base : Nat} {bare : Bool}

/-- The line `tokens` goes on with the containers `outer`, and then shows `mark` left of `column`,
near enough to them for a marker. -/
@[mk_iff]
structure Arrives (outer : List Container) (column : Nat) (tokens mark : List Token) : Prop where
  all : (ofLine outer ⟨tokens, 0, 0⟩).count = outer.length
  mark : (ofLine outer ⟨tokens, 0, 0⟩).cursor.skipBlank.rest = mark
  near : (ofLine outer ⟨tokens, 0, 0⟩).cursor.skipBlank.nearBase = true
  outside : (ofLine outer ⟨tokens, 0, 0⟩).cursor.skipBlank.column < column

theorem Markup.nil_of_item (markup : Markup g)
    (starts : BlockStart.ofCursor ⟨g ++ w, column, base⟩ = .item style bare) : g = [] := by
  cases g with
  | nil => rfl
  | cons t g =>
    obtain ⟨kind, _⟩ := List.forall_mem_cons.mp markup
    rw [List.cons_append, BlockStart.ofCursor] at starts
    rcases kind with kind | kind
    · simp [kind] at starts
    · simp only [kind] at starts
      split at starts <;> cases starts

/-- A line leaves the list of an open item for its next one, exactly when it goes on with the
containers around the list and has the marker left of the item's content. -/
theorem starts_iff (last : ∀ style, outer.getLast? ≠ some (.list style)) (markup : Markup f)
    {mark : List Token} (content : Content w) (marker : Content mark)
    {p : ListStyle → Prop} (begins : ∀ column base, (∃ bare, BlockStart.ofCursor ⟨w, column, base⟩ =
      .item style bare) ↔ column - base ≤ Cursor.maxIndent ∧ p style) :
    ((ofLine (outer ++ .list style :: .item column :: inner) ⟨f ++ w, 0, 0⟩).count = outer.length ∧
        ∃ bare, BlockStart.ofCursor (ofLine (outer ++ .list style :: .item column :: inner)
          ⟨f ++ w, 0, 0⟩).cursor.skipBlank = .item style bare) ↔
      Arrives outer column (f ++ mark) mark ∧ p style := by
  obtain ⟨count, g, skipped, base, g_markup, reads⟩ := content_of_markup outer markup
  obtain ⟨counted, cursor⟩ := reads w content
  obtain ⟨counted', cursor'⟩ := reads mark marker
  have arrives : Arrives outer column (f ++ mark) mark ↔
      count = outer.length ∧ g = [] ∧ skipped - base ≤ Cursor.maxIndent ∧ skipped < column := by
    rw [arrives_iff, counted', cursor']
    simp only [List.append_left_eq_self, Cursor.nearBase, decide_eq_true_eq]
  rw [arrives]
  constructor
  · rintro ⟨departs, bare, starts⟩
    rw [cursor_of_departs last departs, cursor] at starts
    obtain ⟨full, _, outside⟩ := (departs_iff last).mp departs
    rw [counted] at full
    rw [cursor] at outside
    obtain rfl := g_markup.nil_of_item starts
    obtain ⟨near, holds⟩ := (begins skipped base).mp ⟨bare, starts⟩
    exact ⟨⟨full, rfl, near, outside⟩, holds⟩
  · rintro ⟨⟨full, rfl, near, outside⟩, holds⟩
    obtain ⟨t, ts, rfl, _⟩ := id content
    have departs : (ofLine (outer ++ .list style :: .item column :: inner)
        ⟨f ++ t :: ts, 0, 0⟩).count = outer.length := by
      rw [departs_iff last, counted, cursor]
      exact ⟨full, List.cons_ne_nil _ _, outside⟩
    refine ⟨departs, ?_⟩
    rw [cursor_of_departs last departs, cursor]
    exact (begins skipped base).mpr ⟨near, holds⟩

theorem rest_of_item (cs : List Container) (markup : Markup f) (content : Content w)
    (starts : BlockStart.ofCursor (ofLine cs ⟨f ++ w, 0, 0⟩).cursor.skipBlank = .item style bare) :
    (ofLine cs ⟨f ++ w, 0, 0⟩).cursor.skipBlank.rest = w := by
  obtain ⟨_, g, _, _, g_markup, reads⟩ := content_of_markup cs markup
  rw [(reads w content).2] at starts ⊢
  rw [g_markup.nil_of_item starts]
  rfl

end Continuation

namespace Stack

variable {s : Stack} {layers : List Layer} {held : List Tree} {outer : List Container}
  {style : ListStyle} {column start : Nat}

theorem Holds.drop (holds : Holds layers held) {front : List Layer} {layer : Layer}
    {back : List Layer} (split : layers = front ++ layer :: back) :
    ∃ held' more, Holds (layer :: back) held' ∧
      rawLayers layers ++ Tree.rawAll held =
        rawLayers (layer :: back) ++ Tree.rawAll held' ++ more := by
  induction front generalizing layers held with
  | nil =>
    rw [List.nil_append] at split
    subst split
    exact ⟨held, [], holds, (List.append_nil _).symm⟩
  | cons first front ih =>
    subst split
    obtain ⟨container, before⟩ := first
    have outer_holds : Holds (front ++ layer :: back) before := by
      cases container with
      | quote => exact holds.2.1
      | list style => exact holds.2.1
      | item column => exact holds.choose_spec.2.1
    obtain ⟨held', more, inner_holds, raw⟩ := ih outer_holds rfl
    refine ⟨held', more ++ Tree.rawAll held, inner_holds, ?_⟩
    rw [List.cons_append, rawLayers, raw, List.append_assoc]

theorem OpenItem.exists_parts (between : s.Between) (opened : s.OpenItem outer style column start) :
    (∃ inner, s.containers = outer ++ .list style :: .item column :: inner) ∧
      (∀ style, outer.getLast? ≠ some (.list style)) ∧
      ∃ before mark after, Token.join s.raw = before ++ (mark ++ after) ∧ before.size = start ∧
        style.Marks mark := by
  obtain ⟨inner, before, above, layers, shape, rfl, rfl⟩ := opened
  obtain ⟨held, more, holds, raw⟩ := between.holds.drop shape
  obtain ⟨style', top, list_holds, mark, rest, rfl, marks, _⟩ := id holds
  cases top
  refine ⟨⟨(inner.map Layer.container).reverse, ?_⟩, ?_, _, Token.join mark, Token.join
    (Tree.rawAll rest ++ (more ++ ((s.leaf.map fun leaf => Tree.rawAll leaf.2).getD []))),
    ?_, rfl, marks⟩
  · rw [containers, shape]
    simp
  · intro style' last
    rw [List.getLast?_reverse, List.head?_map, ← topStyle?_eq_some, list_holds.1] at last
    cases last
  · rw [Stack.raw, raw]
    simp only [Tree.rawAll_cons, Tree.raw_token, Token.join_append, List.append_assoc]

theorem OpenItem.style_eq {a b mark : Text} {style' : ListStyle}
    (opened : (empty.lines (Token.scan (a ++ (mark ++ b)))).OpenItem outer style column a.size)
    (marks : style'.Marks mark) : style = style' := by
  obtain ⟨_, _, a', mark', b', text, size, marks'⟩ := opened.exists_parts (between_scan _)
  rw [raw_lines] at text
  have behind := congrArg (Text.dropBytes · a.size) ((Token.join_scan _).symm.trans text)
  simp only [Text.dropBytes_left] at behind
  rw [← size, Text.dropBytes_left] at behind
  have same := marks.isItemMarker.unique marks'.isItemMarker behind
  subst same
  exact marks'.unique marks

end Stack

namespace Tree

open Stack (empty)
open Token (scan firstLine)
open Continuation (Arrives Content)

variable {a front marker rest : Text} {start : Nat} {kind : Kind} {p : ListStyle → Prop}

theorem item_start {l q : Place} {b own : Text} {w : List Token} (ends : a.getLast? = some '\n')
    (line : firstLine b = scan own ++ w) (markup : Continuation.Markup (scan own)) (content : Content w)
    (inside : q.In (ofText (a ++ b))) (item : q.isNode = true ∧ q.kind = .listItem)
    (parent : q.parent? = some l) (outside : l.start < a.size) (low : a.size ≤ q.start)
    (high : q.start < a.size + Text.size (Token.join (firstLine b))) :
    q.start = (a ++ own).size := by
  have some_text : b ≠ [] := by
    rintro rfl
    obtain ⟨t, ts, rfl, _⟩ := content
    exact absurd line (by simp [firstLine, scan])
  obtain ⟨style, bare, next, start⟩ :=
    nextItem_of_begins ends some_text inside item parent outside low high
  have parts := continued_parts a b
  rw [← Cursor.blank_append] at parts
  have starts := next.2
  rw [continued, line] at starts
  have left := Continuation.rest_of_item _ markup content starts
  rw [← line] at left
  change (continued a b).cursor.skipBlank.rest = w at left
  rw [left, line, ← List.append_assoc] at parts
  rw [start, List.append_cancel_right parts, Token.join_scan, Text.size_append]

/-- Behind complete lines with an open item, a line of quote marks and blanks, a list marker and
anything else holds its next sibling, exactly when the markup arrives at the item's list, left of the
item's content, and the marker begins an item there. -/
theorem rejoins_iff (ends : a.getLast? = some '\n') (before : start < a.size)
    (markup : ∀ c ∈ front, c = '>' ∨ isIndent c = true)
    (visible : ∃ c, marker.head? = some c ∧ isIndent c = false)
    (clean : ∀ c ∈ marker, c ≠ '\n' ∧ c ≠ '\r') (content : Content (scan marker))
    (line : Content (firstLine (marker ++ rest)))
    (begins : ∀ style column base, (∃ bare,
        BlockStart.ofCursor ⟨firstLine (marker ++ rest), column, base⟩ = .item style bare) ↔
      column - base ≤ Cursor.maxIndent ∧ p style)
    (kinds : ∀ style, p style → style.listKind = kind) :
    (∃ l q q' : Place, l.In (ofText (a ++ (front ++ (marker ++ rest)))) ∧ l.kind = kind ∧
        q ∈ l.items ∧ q.start = start ∧ q.followingItems.head? = some q' ∧ a.size ≤ q'.start ∧
        q'.start < a.size + (front ++ marker).size ∧ a.size + (front ++ marker).size ≤ q'.stop) ↔
      ∃ outer style column, (empty.lines (scan a)).OpenItem outer style column start ∧
        Arrives outer column (scan (front ++ marker)) (scan marker) ∧ p style := by
  obtain ⟨c, head, apart⟩ := visible
  have some_marker : marker ≠ [] := by
    rintro rfl
    cases head
  have stops : ∀ d ∈ marker.head?, isIndent d = false := by
    rw [head]
    rintro _ ⟨⟩
    exact apart
  have stops' : ∀ d ∈ (marker ++ rest).head?, isIndent d = false := by
    rw [List.head?_append_of_ne_nil _ some_marker]
    exact stops
  obtain ⟨cut, tokens⟩ := Token.scan_markup markup stops
  have cut_line := Token.firstLine_markup markup stops'
  have some_text : front ++ (marker ++ rest) ≠ [] := by simp [some_marker]
  have reach : marker.size ≤ Text.size (Token.join (firstLine (marker ++ rest))) :=
    Token.size_le_firstLine clean rest
  have total : Text.size (Token.join (firstLine (front ++ (marker ++ rest)))) =
      front.size + Text.size (Token.join (firstLine (marker ++ rest))) := by
    rw [cut_line, Token.join_append, Text.size_append, Token.join_scan]
  have some_bytes : 0 < marker.size := Text.size_pos some_marker
  have size := Text.size_append front marker
  have between := Stack.between_scan a
  have arrives : ∀ outer style column,
      (empty.lines (scan a)).OpenItem outer style column start →
      (((continued a (front ++ (marker ++ rest))).count = outer.length ∧ ∃ bare,
          BlockStart.ofCursor (continued a (front ++ (marker ++ rest))).cursor.skipBlank =
            .item style bare) ↔
        Arrives outer column (scan (front ++ marker)) (scan marker) ∧ p style) := by
    intro outer style column opened
    obtain ⟨⟨inner, containers⟩, last, _⟩ := opened.exists_parts between
    rw [continued, containers, cut_line, cut]
    exact Continuation.starts_iff last tokens line content (begins style)
  constructor
  · rintro ⟨l, q, q', inside, _, member, same, next, low, high, _⟩
    obtain ⟨outer, style, column, bare, opened, count, starts⟩ :=
      (next_item_iff ends some_text before).mp
        ⟨l, q, q', inside, member, same, next, low, by omega⟩
    exact ⟨outer, style, column, opened,
      (arrives outer style column opened).mp ⟨count, bare, starts⟩⟩
  · rintro ⟨outer, style, column, opened, here⟩
    obtain ⟨count, bare, starts⟩ := (arrives outer style column opened).mpr here
    obtain ⟨l, q, q', inside, list_kind, member, same, next, low, begun, reached⟩ :=
      next_of_starts ends some_text opened count starts
    have left : (continued a (front ++ (marker ++ rest))).cursor.skipBlank.rest =
        firstLine (marker ++ rest) := by
      rw [continued, cut_line] at starts ⊢
      exact Continuation.rest_of_item _ tokens line starts
    rw [left] at begun
    exact ⟨l, q, q', inside, list_kind.trans (kinds style here.2), member, same, next, low,
      by omega, by omega⟩

end Tree

end MarkdownEditing

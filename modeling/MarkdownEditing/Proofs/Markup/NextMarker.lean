import MarkdownEditing.Proofs.Markup.Carets
import MarkdownEditing.Proofs.Syntax.Rejoining

namespace MarkdownEditing

open Token (scan firstLine)
open Continuation (Content)

def IsBox (box : Text) : Prop := box = [] ∨ ∃ n, n ≠ 0 ∧ box = Text.spaces n ++ ['[', ' ', ']']

namespace Marker

variable {m : Marker} {t : Text} {c : Char}

theorem splitTask_box (t : Text) : IsBox (splitTask t).1 := by
  unfold splitTask
  split
  · rename_i box rest found
    split
    · unfold taskBox? at found
      split at found
      · split at found
        · rename_i fits
          cases found
          exact Or.inr ⟨_, Nat.one_le_iff_ne_zero.mp fits.1, rfl⟩
        · cases found
      · cases found
    · exact Or.inl rfl
  · exact Or.inl rfl

theorem bullet?_parts (glyph : c = '-' ∨ c = '+' ∨ c = '*') (found : bullet? (c :: t) = some m) :
    m.before = [] ∧ ∃ box k, IsBox box ∧ k ≠ 0 ∧ m.glyphs = c :: box ∧ m.after = Text.spaces k ∧
      1 ≤ m.size := by
  rw [bullet?_eq glyph] at found
  split at found
  · rename_i some_space
    cases found
    refine ⟨rfl, _, _, splitTask_box t, ?_, rfl, rfl, ?_⟩
    · split <;> omega
    · simp only [withSpaces]
      omega
  · cases found

end Marker

namespace Frame

variable {f : Frame} {d : Document} {item p : Place} {glyph : Char} {rest : Text}

/-- The marker of the next item behind `item` is a number and a delimiter, or a bullet and maybe a
task box, and the spaces of the frame. -/
inductive MarksNext (f : Frame) (d : Document) (item : Place) (glyph : Char) : Prop
  | number (n k : Nat) (ordered : f.isOrdered = true) (delimiter : glyph = '.' ∨ glyph = ')')
      (number : d.numberAt? item.start = some n) (after : f.after = Text.spaces k)
      (marker : f.marker d 1 = Text.ofNat (n + 1) ++ [glyph] ++ Text.spaces k)
  | bullet (box : Text) (k : Nat) (unordered : f.isOrdered = false)
      (bullet : glyph = '-' ∨ glyph = '+' ∨ glyph = '*') (boxed : IsBox box) (some_space : k ≠ 0)
      (after : f.after = Text.spaces k) (marker : f.marker d 1 = glyph :: box ++ Text.spaces k)

namespace MarksNext

theorem marker_head (next : f.MarksNext d item glyph) :
    ∃ c t, f.marker d 1 = c :: t ∧ isIndent c = false ∧ c ≠ '>' ∧ c ≠ '\n' ∧ c ≠ '\r' := by
  cases next with
  | number n k _ _ _ _ marker =>
    cases digits : Text.ofNat (n + 1) with
    | nil => exact absurd digits (Text.ofNat_ne_nil _)
    | cons c t =>
      have digit : c.isDigit = true := Text.isDigit_of_mem_ofNat (n := n + 1) (by simp [digits])
      exact ⟨c, _, by rw [marker, digits, List.append_assoc, List.cons_append], digit_visible digit⟩
  | bullet box k _ bullet _ _ _ marker =>
    refine ⟨glyph, box ++ Text.spaces k, by rw [marker, List.cons_append], ?_⟩
    rcases bullet with rfl | rfl | rfl <;> decide

theorem marker_no_line_break (next : f.MarksNext d item glyph) :
    ∀ c ∈ f.marker d 1, c ≠ '\n' ∧ c ≠ '\r' := by
  have spaces : ∀ k, ∀ c ∈ Text.spaces k, c ≠ '\n' ∧ c ≠ '\r' := by
    intro k c member
    rw [Text.mem_spaces member]
    decide
  cases next with
  | number n k _ delimiter _ _ marker =>
    rw [marker]
    refine List.forall_mem_append.mpr ⟨List.forall_mem_append.mpr ⟨?_, ?_⟩, spaces k⟩
    · intro c member
      have digit := Text.isDigit_of_mem_ofNat member
      constructor <;> rintro rfl <;> cases digit
    · rw [List.forall_mem_singleton]
      rcases delimiter with rfl | rfl <;> decide
  | bullet box k _ bullet boxed _ _ marker =>
    rw [marker]
    refine List.forall_mem_append.mpr ⟨List.forall_mem_cons.mpr ⟨?_, ?_⟩, spaces k⟩
    · rcases bullet with rfl | rfl | rfl <;> decide
    · rcases boxed with rfl | ⟨n, _, rfl⟩
      · simp
      · exact List.forall_mem_append.mpr ⟨spaces n, by simp⟩

theorem marker_content (next : f.MarksNext d item glyph) (rest : Text) :
    Content (scan (f.marker d 1)) ∧ Content (firstLine (f.marker d 1 ++ rest)) := by
  obtain ⟨c, t, marker, indent, other⟩ := next.marker_head
  rw [marker, List.cons_append]
  exact ⟨(Token.content_of_visible indent other t).1,
    (Token.content_of_visible indent other (t ++ rest)).2⟩

theorem begins_iff (next : f.MarksNext d item glyph) (follows : rest.Breaks ∨ rest.BeginsWord)
    (style : ListStyle) (column base : Nat) :
    (∃ bare, BlockStart.ofCursor ⟨firstLine (f.marker d 1 ++ rest), column, base⟩ =
        .item style bare) ↔
      column - base ≤ Cursor.maxIndent ∧ style.glyph = glyph ∧
        (f.isOrdered = true → ∀ n, d.numberAt? item.start = some n → n + 1 < ItemNumber.limit) ∧
        (f.after ≠ [] ∨ rest.Breaks) := by
  cases next with
  | number n k ordered delimiter number after marker =>
    rw [marker, after, List.append_assoc _ _ rest,
      BlockStart.ofCursor_number (Text.ofNat_ne_nil _) (Text.all_isDigit_ofNat _) delimiter follows,
      Text.length_ofNat_le (by decide)]
    simp [ordered, number, Text.spaces, ItemNumber.limit]
  | bullet box k unordered bullet boxed some_space after marker =>
    rw [marker, after, List.append_assoc _ _ rest,
      BlockStart.ofCursor_bullet bullet boxed some_space follows]
    simp [unordered, Text.spaces, some_space]

end MarksNext

variable {t : Text} {lineBreak : LineBreak}

theorem marksNext_number {digits : Text} (numbered : p.IsNumbered digits glyph)
    (inside : p.In (Tree.ofText t)) (found : ofNode? p (Document.ofText t lineBreak) = some f) :
    f.MarksNext (Document.ofText t lineBreak) p glyph ∧
      ((Document.ofText t lineBreak).lineAt p.start).start + f.start = p.start ∧
      f.start + (digits.size + 1) ≤ f.stop := by
  obtain ⟨f', k, found', item, ordered, before, glyphs, after, column, stop⟩ :=
    @Place.IsNumbered.exists_frame t lineBreak p _ _ numbered inside
  rw [found] at found'
  cases found'
  obtain ⟨above, below, parts, size⟩ := numbered.exists_parts inside
  obtain ⟨n, _, read⟩ := numbered.exists_value
  have number : ItemNumber.ofItem? (Document.ofText t lineBreak) p.start =
      some ⟨0, digits.size, n⟩ := by
    rw [← size]
    exact read _ above below (by rw [← List.append_assoc]; exact parts)
  rw [markerStop] at stop
  refine ⟨.number n k ordered numbered.delimiter ?_ after ?_, column, by omega⟩
  · rw [Document.numberAt?, number]
    rfl
  · simp only [Frame.marker, item, ordered, before, glyphs, after, number, Option.map_some,
      Option.getD_some, List.nil_append]

theorem marksNext_bullet {list : Place} (listItem : p.kind = .listItem)
    (parent : p.parent? = some list) (bullets : list.kind = .bulletList)
    (bullet : glyph = '-' ∨ glyph = '+' ∨ glyph = '*') {lead tail : Text}
    (line : (d.lineAt p.start).text = lead ++ ([glyph] ++ tail))
    (start : (d.lineAt p.start).start + lead.size = p.start) (found : ofNode? p d = some f) :
    f.MarksNext d p glyph ∧ f.start = lead.size ∧ f.start + Text.size [glyph] ≤ f.stop := by
  have column : p.start - (d.lineAt p.start).start = lead.size := by omega
  simp only [ofNode?, listItem, parent, bullets, column, line, Text.dropBytes_left] at found
  obtain ⟨m, read, rfl⟩ := Option.map_eq_some_iff.mp found
  obtain ⟨before, box, k, boxed, some_space, glyphs, after, some_size⟩ :=
    Marker.bullet?_parts bullet read
  have one : Text.size [glyph] = 1 := by
    rcases bullet with rfl | rfl | rfl <;> rfl
  have unordered : (ofMarker list (some p) lead.size m).isOrdered = false := by
    simp [isOrdered, ofMarker, bullets]
  refine ⟨.bullet box k unordered bullet boxed some_space after ?_, rfl, ?_⟩
  · rw [Frame.marker, unordered]
    simp only [ofMarker, before, glyphs, after, List.nil_append, List.append_nil]
  · simp only [ofMarker]
    omega

/-- The frame of an item is measured on the line of the item's mark, and makes a marker of the same
style. -/
theorem marks_next (inside : p.In (Tree.ofText t)) (isNode : p.isNode = true)
    (listItem : p.kind = .listItem) (found : ofNode? p (Document.ofText t lineBreak) = some f) :
    ∃ (list : Place) (style : ListStyle) (lead mark tail : Text), p.parent? = some list ∧
      list.kind = style.listKind ∧ style.Marks mark ∧
      ((Document.ofText t lineBreak).lineAt p.start).text = lead ++ (mark ++ tail) ∧
      ((Document.ofText t lineBreak).lineAt p.start).start + lead.size = p.start ∧
      lead.size + mark.size ≤ f.stop ∧ f.MarksNext (Document.ofText t lineBreak) p style.glyph := by
  obtain ⟨list, style, parent, kind, raw, rest, shape, marks⟩ := inside.exists_list isNode listItem
  have marker := marks.isItemMarker
  have last := marks.getLast?
  have text : p.tree.text = Token.join raw ++ Token.join (Tree.rawAll rest) := by
    rw [shape, Tree.text, Tree.raw_node, Tree.rawAll_cons, Tree.raw_token, Token.join_append]
  obtain ⟨tail, line, start⟩ := inside.text_on_line lineBreak text marker.ne_nil
    fun c control => marker.no_line_break control
  refine ⟨list, style, _, Token.join raw, tail, parent, kind, marks, line, start, ?_⟩
  rcases marks.cases with ⟨ordered, -⟩ | ⟨bullets, c, mark, bullet⟩
  · obtain ⟨digits, glyph, numbered⟩ := inside.exists_isNumbered isNode listItem parent
      (kind.trans ordered)
    obtain ⟨raw', _, shape', mark⟩ := numbered.shape
    rw [shape] at shape'
    cases shape'
    rw [mark, List.getLast?_concat] at last
    obtain ⟨next, column, stop⟩ := marksNext_number numbered inside found
    rw [mark, numbered.size_mark, ← Option.some.inj last]
    exact ⟨by omega, next⟩
  · rw [mark] at last line ⊢
    rw [← Option.some.inj last]
    obtain ⟨next, column, stop⟩ :=
      marksNext_bullet listItem parent (kind.trans bullets) bullet line start found
    exact ⟨by omega, next⟩

end Frame

end MarkdownEditing

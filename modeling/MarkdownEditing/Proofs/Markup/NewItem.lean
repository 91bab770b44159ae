import MarkdownEditing.Proofs.Markup.Recounted
import MarkdownEditing.Proofs.Markup.Siblings
import MarkdownEditing.Proofs.Syntax.SameItem

namespace MarkdownEditing

namespace Frame

/-- The containers `frames` write out `own`, of which `lead` is there already, before the frame
`inner` begins: each its mark, if it has one, and spaces up to where the next frame begins. -/
inductive Spells (inner : Frame) (own : Text) : Text → List Frame → Prop
  | nil : Spells inner own own []
  | cons {lead : Text} {f : Frame} {frames : List Frame} (k : Nat)
      (next : ∀ g ∈ (frames ++ [inner]).head?,
        g.start = (lead ++ (f.before ++ (if f.isQuote then ['>'] else []) ++ Text.spaces k)).size)
      (later : Spells inner own
        (lead ++ (f.before ++ (if f.isQuote then ['>'] else []) ++ Text.spaces k)) frames) :
      Spells inner own lead (f :: frames)

end Frame

namespace Enter

open Stack (empty)
open Token (scan firstLine)
open Text (BeginsWord)

variable {s s' : EditState} {t : Transaction} {r : Range} {x : Site} {item : Place}
  {own before held blank rest after : Text}

namespace Site

/-- The line of the caret begins with quote marks and blanks, the mark of the item, spaces and a
word, whose first character is in front of the caret. -/
structure FirstOnLine (x : Site) (item : Place) (own : Text) : Prop where
  text : ∃ mark k c rest, x.line.text = own ++ (mark ++ (Text.spaces k ++ c :: rest)) ∧
    IsItemMarker mark ∧ k ≠ 0 ∧ isWordChar c = true ∧
    (own ++ (mark ++ (Text.spaces k ++ [c]))).size ≤ x.column
  start : item.start = x.line.start + own.size
  markup : ∀ c ∈ own, c = '>' ∨ isIndent c = true

theorem FirstOnLine.line_start_le (on : x.FirstOnLine item own) : x.line.start ≤ item.start := by
  rw [on.start]
  exact Nat.le_add_right _ _

/-- What a split keeps ends with the front of the item and a word. -/
structure KeepsItem (x : Site) (s : EditState) (item : Place) (above own mark : Text) (k : Nat)
    (style : ListStyle) (word : Text) : Prop where
  front : Tree.ItemFront above own mark k style
  text : x.kept s = above ++ (own ++ (mark ++ (Text.spaces k ++ word)))
  start : item.start = (above ++ own).size
  begins : word.BeginsWord
  single : '\n' ∉ own ++ (mark ++ (Text.spaces k ++ word))
  kind : x.inner.node.kind = style.listKind
  marker : x.inner.MarksNext s.doc item style.glyph

theorem FirstOnLine.exists_keepsItem (on : x.FirstOnLine item own) (coherent : s.Coherent)
    (sound : x.Sound s) (shown : x.inner.item = some item) (behind : x.inner.stop ≤ x.column)
    (divides : x.Divides s before held blank rest after) :
    ∃ mark k style word, x.KeepsItem s item before own mark k style word := by
  obtain ⟨mark, k, c, tail, text, isMarker, some_space, word, reach⟩ := on.text
  have start := on.start
  obtain ⟨style, above, mark', more, kind, marks, marker, kept, item_start⟩ :=
    item_mark coherent sound shown (by omega) behind divides
  have visible := (isWordChar_iff.mp word).1
  have parts : held ++ blank ++ rest = own ++ (mark ++ (Text.spaces k ++ [c])) ++ tail := by
    rw [← divides.line, text]
    simp only [List.append_assoc, List.singleton_append]
  obtain ⟨w, rfl⟩ := Text.held_of_visible parts (by rw [← divides.column_eq.1]; exact reach)
    divides.white (by simp) visible
  have whole : x.kept s = before ++ (own ++ (mark ++ (Text.spaces k ++ c :: w))) := by
    rw [divides.kept_eq]
    simp only [List.append_assoc, List.singleton_append]
  have here : item.start = (before ++ own).size := by
    rw [start, divides.lies.start, Text.size_append]
  have same : mark' = mark := by
    have both := congrArg (Text.dropBytes · item.start) (kept.symm.trans whole)
    rw [item_start, Text.dropBytes_left, ← item_start, here, ← List.append_assoc before own,
      Text.dropBytes_left] at both
    exact marks.isItemMarker.unique isMarker both
  subst same
  refine ⟨mark', k, style, c :: w, ⟨divides.lies.opens, on.markup, marks, some_space⟩, whole, here,
    ⟨c, w, rfl, word⟩, ?_, kind, marker⟩
  intro member
  apply divides.lies.single
  rw [divides.line]
  simp only [List.append_assoc, List.singleton_append, List.mem_append, List.mem_cons] at member ⊢
  tauto

namespace KeepsItem

variable {above mark word : Text} {k : Nat} {style : ListStyle}
  (keeps : x.KeepsItem s item above own mark k style word)

include keeps

theorem text_append (tail : Text) : x.kept s ++ tail =
    above ++ (own ++ (mark ++ (Text.spaces k ++ (word ++ tail)))) := by
  rw [keeps.text]
  simp only [List.append_assoc]

theorem begins_append (tail : Text) : (word ++ tail).BeginsWord := by
  obtain ⟨c, w, rfl, here⟩ := keeps.begins
  exact ⟨c, w ++ tail, rfl, here⟩

theorem exists_itemLine (sound : x.Sound s) (shown : x.inner.item = some item)
    (divides : x.Divides s before held blank rest after) :
    ∃ done around layers column base, column - base ≤ Cursor.maxIndent ∧
      (empty.lines (scan above)).ItemLine (scan own) style done around layers column base := by
  obtain ⟨p, inside, isNode, frame, _⟩ := sound.inner
  obtain ⟨rfl, listItem, _⟩ := Frame.item_of_ofNode? frame shown
  have text : s.text = x.kept s ++ (blank ++ rest ++ after) := by
    rw [divides.text, divides.kept_eq]
    simp only [List.append_assoc]
  rw [text, keeps.text_append] at inside
  exact keeps.front.exists_itemLine (keeps.begins_append _) inside ⟨isNode, listItem⟩ keeps.start

theorem exists_openItem (sound : x.Sound s) (shown : x.inner.item = some item)
    (divides : x.Divides s before held blank rest after)
    (lead : (x.lead s).normalizeIndent s.settings = own ++ x.inner.marker s.doc 1) :
    ∃ outer style column,
      (empty.lines (scan (x.kept s ++ s.lineBreak))).OpenItem outer style column item.start ∧
        Continuation.Arrives outer column (scan ((x.lead s).normalizeIndent s.settings))
          (scan (x.inner.marker s.doc 1)) := by
  obtain ⟨done, around, layers, column, base, near, line⟩ :=
    keeps.exists_itemLine sound shown divides
  obtain ⟨c, u, shape, visible, _⟩ := keeps.marker.marker_head
  have clean : ∃ z, s.lineBreak = z ++ ['\n'] ∧ '\n' ∉ z := by
    cases kind : s.doc.lineBreak with
    | lf => exact ⟨[], by simp [EditState.lineBreak, kind, LineBreak.text], by simp⟩
    | crlf => exact ⟨['\r'], by simp [EditState.lineBreak, kind, LineBreak.text], by simp⟩
  obtain ⟨z, lineBreak, none_in⟩ := clean
  have whole : own ++ (mark ++ (Text.spaces k ++ (word ++ s.lineBreak))) =
      own ++ (mark ++ (Text.spaces k ++ word)) ++ z ++ ['\n'] := by
    rw [lineBreak]
    simp only [List.append_assoc]
  obtain ⟨start, left, opened⟩ := keeps.front.openItem near line (keeps.begins_append _) whole
    (fun member => (List.mem_append.mp member).elim keeps.single none_in)
  refine ⟨(layers.map Layer.container).reverse, style, start, ?_, ?_⟩
  · rw [keeps.text_append, keeps.start]
    exact opened
  · rw [lead]
    refine keeps.front.arrives_marker near line left (keeps.marker.marker_content []).1 ?_
    rw [shape]
    rintro _ ⟨⟩
    exact visible

end KeepsItem

theorem size_le_of_spells {inner : Frame} {lead : Text} {frames : List Frame}
    (spells : inner.Spells own lead frames) : lead.size ≤ own.size := by
  induction spells with
  | nil => exact Nat.le_refl _
  | cons k _ _ ih =>
    rw [Text.size_append] at ih
    omega

theorem leadOf_of_spells {inner : Frame} {line : Line} {lead : Text} {frames : List Frame}
    (columns : ∀ n ≤ own.size, line.text.columnAt s.settings.tabSize n = n)
    (spells : inner.Spells own lead frames) :
    leadOf s line false lead (frames ++ [inner]) = own ++ inner.marker s.doc 1 := by
  induction spells with
  | nil => rfl
  | @cons lead f frames k next later ih =>
    have reach := size_le_of_spells later
    have wide : ∀ n, n = (lead ++ (f.before ++ (if f.isQuote then ['>'] else []) ++
        Text.spaces k)).size →
        lead ++ f.blank (some (line.text.columnAt s.settings.tabSize n - lead.size)) true =
          lead ++ (f.before ++ (if f.isQuote then ['>'] else []) ++ Text.spaces k) := by
      rintro n rfl
      rw [columns _ reach, Frame.blank]
      simp only [Text.size_append, Text.size_spaces]
      congr 3
      omega
    rw [← ih]
    cases frames with
    | nil =>
      simp only [List.cons_append, List.nil_append, leadOf, Bool.false_eq_true, if_false]
      rw [wide _ (next inner rfl)]
    | cons g frames =>
      simp only [List.cons_append, leadOf]
      rw [wide _ (next g rfl)]

end Site

section Rejoins

variable (splits : SplitsLines s t) (range : r ∈ s.selection.ranges) (found : site s r = .ok x)
  (shown : x.inner.item = some item) (behind : x.inner.stop ≤ x.column)
  (on : x.FirstOnLine item own)

include splits range found shown behind on

theorem exists_keepsItem : ∃ before held blank rest after mark k style word,
    x.Sound s ∧ x.Divides s before held blank rest after ∧
      x.KeepsItem s item before own mark k style word := by
  have sound := site_sound splits.coherent (splits.coherent.inside r range) found
  obtain ⟨e, _, split⟩ := splits.exists_edit range found
  obtain ⟨before, held, blank, rest, after, divides⟩ := split_divides splits.coherent sound split
  obtain ⟨mark, k, style, word, keeps⟩ :=
    on.exists_keepsItem splits.coherent sound shown behind divides
  exact ⟨before, held, blank, rest, after, mark, k, style, word, sound, divides, keeps⟩

theorem rejoins_iff_of_lead
    (lead : (x.lead s).normalizeIndent s.settings = own ++ x.inner.marker s.doc 1) :
    Rejoins s x item ↔
      (x.inner.isOrdered = true →
        ∀ n, s.doc.numberAt? item.start = some n → n + 1 < ItemNumber.limit) ∧
      (x.inner.after ≠ [] ∨ x.line.text.dropBytes x.column = []) := by
  constructor
  · rintro ⟨number, spaced, _⟩
    exact ⟨number, spaced⟩
  · rintro ⟨number, spaced⟩
    obtain ⟨before, held, blank, rest, after, mark, k, style, word, sound, divides, keeps⟩ :=
      exists_keepsItem splits range found shown behind on
    exact ⟨number, spaced, keeps.exists_openItem sound shown divides lead⟩

/-- An item at the top, in quotes or inside other items, behind the marks of its containers and
spaces: the new line repeats them, unless tabs are to be used in their place. -/
theorem rejoins_iff_of_spells (spells : x.inner.Spells own [] x.outer.reverse)
    (no_tab : '\t' ∉ own)
    (flush : s.settings.indentUnit.isTab = false ∨ ∀ c ∈ own.head?, isIndent c = false) :
    Rejoins s x item ↔
      (x.inner.isOrdered = true →
        ∀ n, s.doc.numberAt? item.start = some n → n + 1 < ItemNumber.limit) ∧
      (x.inner.after ≠ [] ∨ x.line.text.dropBytes x.column = []) := by
  refine rejoins_iff_of_lead splits range found shown behind on ?_
  obtain ⟨_, _, _, _, _, _, _, _, _, _, _, keeps⟩ :=
    exists_keepsItem splits range found shown behind on
  obtain ⟨c, u, shape, visible, _⟩ := keeps.marker.marker_head
  obtain ⟨mark, k, d, tail, text, _⟩ := on.text
  have first := on.line_start_le
  have single : ∀ c ∈ own, c.utf8Size = 1 := by
    intro c member
    rcases on.markup c member with rfl | indent
    · rfl
    · simp only [isIndent, Bool.or_eq_true, beq_iff_eq] at indent
      rcases indent with rfl | rfl <;> rfl
  have lead : x.lead s = own ++ x.inner.marker s.doc 1 := by
    rw [Site.lead, if_pos (Or.inl (by simp [Site.isContinued_eq_false shown first])),
      Site.isContinued_eq_false shown first, List.reverse_cons]
    refine Site.leadOf_of_spells (fun n inside => ?_) spells
    rw [text]
    exact Text.columnAt_of_no_tab _ _ no_tab single inside
  rw [lead]
  refine Text.normalizeIndent_of_flush (flush.imp_right fun visible' => ?_)
  cases own with
  | nil =>
    rw [List.nil_append, shape]
    rintro _ ⟨⟩
    exact visible
  | cons d own => exact visible'

end Rejoins

def innerItem : EditState :=
  .ofText ['-', ' ', 'x', '\n', ' ', ' ', '1', '.', ' ', 'a', 'b'] (Selection.caret 10) {}

theorem innerItem_rejoins : ∃ (x : Site) (item : Place), site innerItem (Range.caret 10) = .ok x ∧
    x.inner.item = some item ∧ Rejoins innerItem x item := by
  have made : run innerItem = .ok ⟨⟨[⟨10, 10, ['\n', ' ', ' ', '2', '.', ' ']⟩], 11⟩,
      some (Selection.caret 16)⟩ := by cbv
  have only : innerItem.selection.ranges = [Range.caret 10] := by cbv
  have place : (site innerItem (Range.caret 10)).map (fun x => (x.inner.item.map Place.start,
      x.line.start, x.line.text, x.column, x.inner.start, x.inner.stop, x.isEmptyLine,
      x.inner.after)) =
      .ok (some 6, 4, [' ', ' ', '1', '.', ' ', 'a', 'b'], 6, 2, 5, false, [' ']) := by cbv
  have frames : (site innerItem (Range.caret 10)).map (fun x =>
      x.outer.map fun f => (f.before, f.isQuote)) = .ok [([], false)] := by cbv
  have number : innerItem.doc.numberAt? 6 = some 1 := by cbv
  have coherent : innerItem.Coherent := EditState.coherent_ofText _ _ _
  obtain ⟨x, found, summary⟩ := site_of_map place
  simp only [Prod.mk.injEq] at summary
  obtain ⟨shown, line, text, column, start, stop, filled, after⟩ := summary
  obtain ⟨item, shown, item_start⟩ := Option.map_eq_some_iff.mp shown
  rw [found] at frames
  obtain ⟨f, outer, frame⟩ := List.map_eq_singleton_iff.mp (Except.ok.inj frames)
  obtain ⟨before, quote⟩ := Prod.mk.inj frame
  have splits := SplitsLines.of_single coherent only found filled made
  have on : x.FirstOnLine item [' ', ' '] := by
    refine ⟨⟨['1', '.'], 1, 'a', ['b'], text, .number ['1'] '.' (by simp) rfl (Or.inl rfl), by decide,
      rfl, ?_⟩, ?_, by simp [isIndent]⟩
    · rw [column]
      decide
    · rw [item_start, line]
      rfl
  have spells : x.inner.Spells [' ', ' '] [] x.outer.reverse := by
    rw [outer, List.reverse_singleton]
    refine .cons 2 ?_ ?_
    · rintro _ ⟨⟩
      rw [start, before, quote]
      rfl
    · rw [before, quote]
      exact .nil
  refine ⟨x, item, found, shown, (rejoins_iff_of_spells splits (by rw [only]; simp) found shown
    (by omega) on spells (by decide) (Or.inl rfl)).mpr ⟨?_, Or.inl (by simp [after])⟩⟩
  intro _ n read
  rw [item_start, number] at read
  cases read
  decide

namespace Site

variable {list l q : Place} {front later : Text}

theorem NewLine.start_eq (line : x.NewLine s s' front later) {glyph : Char}
    (marker : x.inner.MarksNext s.doc item glyph) (inside : q.In (Tree.ofText s'.text))
    (is_item : q.isNode = true ∧ q.kind = .listItem) (parent : q.parent? = some l)
    (outside : l.start < (x.kept s ++ s.lineBreak).size)
    (low : (x.kept s ++ s.lineBreak).size ≤ q.start)
    (high : q.start < (x.kept s ++ s.lineBreak).size +
      Text.size (Token.join (firstLine (front ++ (x.inner.marker s.doc 1 ++ later))))) :
    q.start = (x.kept s ++ s.lineBreak ++ front).size := by
  obtain ⟨c, u, shape, visible, _⟩ := marker.marker_head
  have stops : ∀ c ∈ (x.inner.marker s.doc 1 ++ later).head?, isIndent c = false := by
    rw [shape]
    rintro _ ⟨⟩
    exact visible
  rw [line.text] at inside
  exact Tree.item_start (kept_ends x s) (Token.firstLine_markup line.markup stops)
    (Token.scan_markup line.markup stops).2 (marker.marker_content later).2 inside is_item parent
    outside low high

theorem NewLine.marker_le (line : x.NewLine s s' front later) {glyph : Char}
    (marker : x.inner.MarksNext s.doc item glyph) :
    (front ++ x.inner.marker s.doc 1).size ≤
      Text.size (Token.join (firstLine (front ++ (x.inner.marker s.doc 1 ++ later)))) := by
  rw [← List.append_assoc]
  refine Token.size_le_firstLine (List.forall_mem_append.mpr
    ⟨fun c member => ?_, marker.marker_no_line_break⟩) later
  rcases line.markup c member with rfl | indent
  · decide
  · constructor <;> rintro rfl <;> cases indent

variable {above mark word : Text} {k : Nat} {style : ListStyle}

/-- The items up to the one with the caret begin where they did, and the new item comes next. -/
theorem KeepsItem.exists_items (keeps : x.KeepsItem s item above own mark k style word)
    (sound : x.Sound s) (shown : x.inner.item = some item)
    (divides : x.Divides s before held blank rest after) (line : x.NewLine s s' front later)
    (rejoins : Rejoins s x item) (inside : list.In (Tree.ofText s.text))
    (member : item ∈ list.items) :
    ∃ list' q : Place, list'.In (Tree.ofText s'.text) ∧ list'.kind = list.kind ∧
      list'.start < (x.kept s ++ s.lineBreak).size ∧ q ∈ list'.items ∧
      q.start = (x.kept s ++ s.lineBreak ++ front).size ∧
      ∃ ahead, list.items = ahead ++ item :: item.followingItems ∧
        list'.items.map Place.start =
          (ahead ++ [item]).map Place.start ++ q.start :: q.followingItems.map Place.start := by
  obtain ⟨done, around, layers, column, base, near, opens⟩ :=
    keeps.exists_itemLine sound shown divides
  have text : s.text = x.kept s ++ (blank ++ rest ++ after) := by
    rw [divides.text, divides.kept_eq]
    simp only [List.append_assoc]
  have text' : s'.text = x.kept s ++
      (s.lineBreak ++ (front ++ (x.inner.marker s.doc 1 ++ later))) := by
    rw [line.text, List.append_assoc]
  -- in both texts the same items come in front
  obtain ⟨l, p, l_inside, l_kind, p_member, p_start, starts, _⟩ :=
    keeps.front.exists_items near opens (keeps.begins_append (blank ++ rest ++ after))
  obtain ⟨l', p', l_inside', l_kind', p_member', p_start', starts', _⟩ :=
    keeps.front.exists_items near opens
      (keeps.begins_append (s.lineBreak ++ (front ++ (x.inner.marker s.doc 1 ++ later))))
  rw [← keeps.text_append, ← text] at l_inside
  rw [← keeps.text_append, ← text'] at l_inside'
  rw [← keeps.start] at p_start p_start'
  obtain ⟨rfl, rfl⟩ := l_inside.eq_of_mem_items inside p_member member p_start
  obtain ⟨ahead, items⟩ := Place.items_split member
  rw [items, List.map_append, List.map_cons] at starts
  have same_ahead := List.append_cancel_right starts
  -- the new item is the next one
  obtain ⟨l₂, p₂, q, inside₂, _, member₂, start₂, following, low, high, _⟩ :=
    (line.sibling_iff keeps.kind keeps.front.marks keeps.marker
      (by rw [keeps.text, List.append_assoc]) keeps.start).mpr rejoins
  obtain ⟨rfl, rfl⟩ := l_inside'.eq_of_mem_items inside₂ p_member' member₂
    (p_start'.trans start₂.symm)
  obtain ⟨q_member, _⟩ := l_inside'.next_item member₂ following
  obtain ⟨q_inside, q_item⟩ := l_inside'.of_mem_items q_member
  have outside : l'.start < (x.kept s ++ s.lineBreak).size := by
    have list_start := (Place.span_of_mem_children (List.mem_filter.mp p_member').1).1
    have some_bytes := Text.size_pos keeps.front.marks.isItemMarker.ne_nil
    rw [p_start', keeps.start] at list_start
    simp only [keeps.text, Text.size_append] at list_start ⊢
    omega
  have marker_le := line.marker_le keeps.marker
  refine ⟨l', q, l_inside', l_kind'.trans l_kind.symm, outside, q_member, ?_, ahead, items, ?_⟩
  · exact line.start_eq keeps.marker q_inside q_item (Place.isNode_of_mem_items q_member).2 outside
      low (by omega)
  · rw [starts', p_start', ← same_ahead, l_inside'.followingItems_eq member₂ following]
    simp

theorem KeepsItem.mapPos_start (keeps : x.KeepsItem s item above own mark k style word)
    (splits : SplitsLines s t) (only : s.selection.ranges = [r]) (found : site s r = .ok x)
    (divides : x.Divides s before held blank rest after) {p : Place} (reach : p.start ≤ item.start) :
    t.changes.mapPos p.start .after = p.start := by
  refine mapPos_of_lt_split splits only found ?_
  have kept := divides.trimStop
  have some_bytes := Text.size_pos keeps.front.marks.isItemMarker.ne_nil
  have kept_size := congrArg Text.size (divides.kept_eq.symm.trans keeps.text)
  have item_start := keeps.start
  simp only [Text.size_append] at kept_size item_start
  omega

/-- An edit carries a list's items behind the caret along and leaves the others where they are. -/
theorem KeepsItem.map_mapPos (keeps : x.KeepsItem s item above own mark k style word)
    (splits : SplitsLines s t) (only : s.selection.ranges = [r]) (found : site s r = .ok x)
    (divides : x.Divides s before held blank rest after) {ahead : List Place}
    (inside : list.In (Tree.ofText s.text))
    (items : list.items = ahead ++ item :: item.followingItems) :
    (list.items.map Place.start).map (t.changes.mapPos · .after) =
      (ahead ++ [item]).map Place.start ++
        (item.followingItems.map Place.start).map (t.changes.mapPos · .after) := by
  have increase := inside.items_increase
  rw [items] at increase
  have stay : ∀ p ∈ ahead ++ [item],
      ((t.changes.mapPos · .after) ∘ Place.start) p = p.start := by
    refine List.forall_mem_append.mpr ⟨fun p earlier => ?_, List.forall_mem_singleton.mpr ?_⟩
    · have order := (List.pairwise_append.mp increase).2.2 p earlier item List.mem_cons_self
      exact keeps.mapPos_start splits only found divides (Nat.le_of_lt order)
    · exact keeps.mapPos_start splits only found divides (Nat.le_refl _)
  rw [items, List.append_cons ahead, List.map_append, List.map_append, List.map_map,
    List.map_congr_left stay]

theorem NewLine.followingItems_eq_nil (line : x.NewLine s s' front later) {glyph : Char}
    (marker : x.inner.MarksNext s.doc item glyph) (whole : s'.text =
      x.kept s ++ s.lineBreak ++ (front ++ (x.inner.marker s.doc 1 ++ rest)))
    (single : '\n' ∉ rest) (inside : l.In (Tree.ofText s'.text))
    (outside : l.start < (x.kept s ++ s.lineBreak).size) (member : q ∈ l.items)
    (start : q.start = (x.kept s ++ s.lineBreak ++ front).size) : q.followingItems = [] := by
  rw [line.text] at whole
  obtain rfl : later = rest := by simpa using whole
  have clean : '\n' ∉ front ++ (x.inner.marker s.doc 1 ++ later) := by
    intro break_in
    rcases List.mem_append.mp break_in with in_front | behind_front
    · rcases line.markup _ in_front with other | indent
      · cases other
      · cases indent
    · rcases List.mem_append.mp behind_front with in_marker | in_rest
      · exact (marker.marker_no_line_break _ in_marker).1 rfl
      · exact single in_rest
  rw [List.eq_nil_iff_forall_not_mem]
  intro p following
  obtain ⟨front', items⟩ := Place.items_split member
  have p_member : p ∈ l.items := by
    rw [items]
    simp [following]
  have increase := inside.items_increase
  rw [items] at increase
  have behind := List.rel_of_pairwise_cons (List.pairwise_append.mp increase).2.1 following
  obtain ⟨p_inside, p_item⟩ := inside.of_mem_items p_member
  obtain ⟨leaf, _, child, _, some_bytes⟩ := p_inside.item_mark p_item
  have in_text := p_inside.stop_le
  have in_item := Place.span_of_mem_children child
  have low := Text.size_append (x.kept s ++ s.lineBreak) front
  have again := line.start_eq marker p_inside p_item (Place.isNode_of_mem_items p_member).2 outside
    (by omega) (by
      rw [Token.join_firstLine_of_clean clean, ← Text.size_append, ← line.text]
      omega)
  omega

end Site

section Items

variable {list : Place} (splits : SplitsLines s t) (only : s.selection.ranges = [r])
  (found : site s r = .ok x) (shown : x.inner.item = some item) (behind : x.inner.stop ≤ x.column)
  (on : x.FirstOnLine item own)
  (word : ∀ c ∈ (x.line.text.dropBytes x.column).head?, isWordChar c = true ∧ c.isDigit = false)
  (next : s.next? t = some s') (rejoins : Rejoins s x item) (inside : list.In s.tree)
  (member : item ∈ list.items)

include splits only found shown behind on word next rejoins inside member

/-- Enter with one caret puts the new item behind the one that it splits. The items of the list then
begin at the marks, if the items behind the caret are carried along, and so they do where the item
and its line are the last ones. -/
theorem exists_items_at_marks : ∃ list' q : Place, list'.In s'.tree ∧ list'.kind = list.kind ∧
    q ∈ list'.items ∧ q.start = t.changes.mapPos x.pos .after - (x.inner.marker s.doc 1).size ∧
    (q.followingItems.map Place.start =
        (item.followingItems.map Place.start).map (t.changes.mapPos · .after) →
      ∀ n, n ∈ list'.items.map Place.start ↔ Mark s t list n) ∧
    (item.followingItems = [] → x.line.stop = s.text.size → q.followingItems = []) := by
  have range : r ∈ s.selection.ranges := by
    rw [only]
    exact List.mem_singleton_self r
  obtain ⟨before, held, blank, rest, after, mark, k, style, w, sound, divides, keeps⟩ :=
    exists_keepsItem splits range found shown behind on
  have fresh := Site.isContinued_eq_false shown on.line_start_le
  obtain ⟨front, later, line⟩ := newLine_of_single splits only found divides fresh keeps.marker
    word next
  have coherent' := splits.coherent.next next
  rw [splits.coherent.tree] at inside
  rw [coherent'.tree]
  obtain ⟨list', q, inside', kind, outside, q_member, q_start, ahead, items, starts⟩ :=
    keeps.exists_items sound shown divides line rejoins inside member
  have insert : (x.lineSplit s).insert = s.lineBreak ++ (front ++ x.inner.marker s.doc 1) := by
    rw [Site.lineSplit, line.lead]
  have mark_start : q.start = t.changes.mapPos x.pos .after - (x.inner.marker s.doc 1).size := by
    rw [Site.mapPos_of_split splits only found divides, insert, ← divides.kept_eq, q_start]
    simp only [Text.size_append]
    omega
  refine ⟨list', q, inside', kind, q_member, mark_start, fun carried n => ?_, fun last bottom => ?_⟩
  · have old := keeps.map_mapPos splits only found divides inside items
    rw [mark_iff_of_caret only found shown member, old, ← carried, starts, ← mark_start]
    simp only [List.mem_append, List.mem_cons, fresh, true_and]
    tauto
  · obtain ⟨applied, _⟩ := EditState.next?_changed (Transaction.fits_byRange splits.made).1 next
    have whole := Site.text_of_last splits only found divides
      (fun p other => by rw [shown] at other; cases other; exact last) applied
    rw [divides.after_eq_nil bottom, List.append_nil, insert, ← divides.kept_eq] at whole
    refine line.followingItems_eq_nil keeps.marker ?_ divides.newline_not_mem_rest inside' outside
      q_member q_start
    rw [whole]
    simp only [List.append_assoc]

end Items

end Enter

end MarkdownEditing

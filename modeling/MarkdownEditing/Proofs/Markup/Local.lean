import MarkdownEditing.Proofs.Edit.Single
import MarkdownEditing.Proofs.Markup.Backspace
import MarkdownEditing.Proofs.Markup.Runs

namespace MarkdownEditing

def Text.SplitsBreak (t : Text) (pos : Nat) : Prop :=
  ∃ a b : Text, t = a ++ '\r' :: '\n' :: b ∧ pos = a.size + 1

theorem Text.not_splitsBreak {t : Text} {pos : Nat} (clean : '\r' ∉ t) : ¬t.SplitsBreak pos := by
  rintro ⟨a, b, parts, _⟩
  exact clean (by simp [parts])

namespace Change

def OnLine (c : Change) (l : Line) : Prop := l.start ≤ c.start ∧ c.start ≤ c.stop ∧ c.stop ≤ l.stop

def Renumbers (c : Change) (t : Text) (pos : Nat) : Prop :=
  ∃ (q : Place) (digits : Text) (glyph : Char), q.In (Tree.ofText t) ∧ q.IsNumbered digits glyph ∧
    pos ≤ q.start ∧ c.start = q.start ∧ c.stop = q.start + digits.size

structure NumbersBetween (t : Text) (low high : Nat) (changes : List Change) : Prop where
  apart : changes.Pairwise Before
  each : ∀ c ∈ changes, c.Renumbers t low ∧ c.stop ≤ high

variable {t : Text} {low mid high : Nat} {changes later : List Change} {c : Change}

theorem Renumbers.low_le_start (renumbers : c.Renumbers t low) :
    low ≤ c.start ∧ c.start < c.stop := by
  obtain ⟨q, digits, glyph, _, numbered, behind, start, stop⟩ := renumbers
  have some_digit := numbered.size_pos
  omega

theorem Renumbers.mono (renumbers : c.Renumbers t mid) (order : low ≤ mid) : c.Renumbers t low := by
  obtain ⟨q, digits, glyph, inside, numbered, behind, span⟩ := renumbers
  exact ⟨q, digits, glyph, inside, numbered, Nat.le_trans order behind, span⟩

theorem NumbersBetween.surrounds {e : RangeEdit} {own : Change}
    (numbers : NumbersBetween t low high changes)
    (members : ∀ c, c ∈ e.changes ↔ c = own ∨ c ∈ changes) (start : own.start ≤ low)
    (stop : own.stop = low) (inside : low ≤ high) : e.Surrounds low high own changes where
  changes := members
  low := start
  high := Nat.le_of_eq stop.symm
  reach := Nat.le_trans (Nat.le_of_eq stop) inside
  ahead c member := by
    have bounds := (numbers.each c member).1.low_le_start
    exact ⟨Nat.le_trans (Nat.le_of_eq stop) bounds.1, bounds.2, (numbers.each c member).2⟩
  apart := numbers.apart

theorem numbersBetween_nil : NumbersBetween t low high [] :=
  ⟨List.Pairwise.nil, fun _ member => absurd member List.not_mem_nil⟩

theorem NumbersBetween.mono {bottom top : Nat} (numbers : NumbersBetween t low high changes)
    (below : bottom ≤ low) (above : high ≤ top) : NumbersBetween t bottom top changes :=
  ⟨numbers.apart, fun c member =>
    ⟨(numbers.each c member).1.mono below, Nat.le_trans (numbers.each c member).2 above⟩⟩

theorem NumbersBetween.append (first : NumbersBetween t low mid changes)
    (second : NumbersBetween t mid high later) (order : low ≤ mid) (order' : mid ≤ high) :
    NumbersBetween t low high (changes ++ later) := by
  refine ⟨List.pairwise_append.mpr ⟨first.apart, second.apart, fun a member b member' => ?_⟩,
    fun c member => ?_⟩
  · have bounds := (first.each a member).1.low_le_start
    have bounds' := (second.each b member').1.low_le_start
    have stop := (first.each a member).2
    rw [Before]
    omega
  · rcases List.mem_append.mp member with member | member
    · exact ⟨(first.each c member).1, Nat.le_trans (first.each c member).2 order'⟩
    · exact ⟨(second.each c member).1.mono order, (second.each c member).2⟩

theorem numbersBetween_renumber {lineBreak : LineBreak} {offset : Int} {p list : Place}
    (inside : list.In (Tree.ofText t)) (ordered : list.kind = .orderedList)
    (member : p ∈ list.items) :
    NumbersBetween t p.stop list.stop (renumber p (Document.ofText t lineBreak) offset) := by
  rw [renumber_eq inside ordered member]
  refine ⟨recount_before inside ordered member _, fun c change => ?_⟩
  obtain ⟨q, among, rfl⟩ := List.mem_map.mp change
  have following := List.mem_of_mem_take among
  obtain ⟨q_inside, glyph, numbered⟩ := followingItem_numbered inside ordered member following
  obtain ⟨front, items⟩ := Place.items_split member
  have apart := list.items_apart
  rw [items] at apart
  have behind := List.rel_of_pairwise_cons (List.pairwise_append.mp apart).2.1 following
  have child := (List.mem_filter.mp (Place.mem_items_of_following member following)).1
  have mark := numbered.size_le
  have reach := (Place.span_of_mem_children child).2
  refine ⟨⟨q, q.markDigits, glyph, q_inside, numbered, behind, rfl, rfl⟩, ?_⟩
  dsimp only [Place.recount]
  omega

end Change

namespace Place

theorem around_nested (t : Tree) (above : List Level) :
    (around t above).Pairwise fun a b => b ∈ around a.tree a.above := by
  induction above generalizing t with
  | nil => exact List.Pairwise.nil
  | cons level above ih => exact List.Pairwise.cons (fun _ member => member) (ih _)

theorem ancestors_nested (p : Place) :
    p.ancestors.Pairwise fun a b => b ∈ around a.tree a.above :=
  List.Pairwise.cons (fun _ member => member) (around_nested p.tree p.above)

end Place

namespace EditState.Coherent

variable {s : EditState} {pos : Nat}

theorem line_span (coherent : s.Coherent) (inside : pos ≤ s.doc.size) :
    (s.doc.lineAt pos).start ≤ pos ∧ pos ≤ (s.doc.lineAt pos).stop + 1 ∧
      (s.doc.lineAt pos).stop ≤ s.doc.size := by
  obtain ⟨before, after, parts, lies, reaches, _⟩ := coherent.lies_lineAt inside
  have sizes := congrArg Text.size parts
  simp only [Text.size_append] at sizes
  have whole : s.doc.size = s.text.size := rfl
  have stop := lies.stop
  exact ⟨reaches.1, by have high := reaches.2; omega, by omega⟩

theorem line_bounds (coherent : s.Coherent) (inside : pos ≤ s.doc.size)
    (apart : ¬s.text.SplitsBreak pos) :
    (s.doc.lineAt pos).start ≤ pos ∧ pos ≤ (s.doc.lineAt pos).stop ∧
      (s.doc.lineAt pos).stop ≤ s.doc.size := by
  obtain ⟨low, -, high⟩ := coherent.line_span inside
  obtain ⟨before, after, parts, lies, reaches, _⟩ := coherent.lies_lineAt inside
  have stop := lies.stop
  refine ⟨low, ?_, high⟩
  rcases reaches.2 with on_line | ⟨⟨rest, break_text⟩, within⟩
  · exact on_line
  · refine absurd ⟨before ++ (s.doc.lineAt pos).text, rest, ?_, ?_⟩ apart
    · rw [← break_text]
      exact parts
    · rw [Text.size_append]
      omega

theorem stop_above (coherent : s.Coherent) (inside : pos ≤ s.doc.size)
    (later : 0 < (s.doc.lineAt pos).start) :
    (s.doc.lineAt ((s.doc.lineAt pos).start - 1)).stop < (s.doc.lineAt pos).start := by
  obtain ⟨before, after, parts, lies, reaches, _⟩ := coherent.lies_lineAt inside
  have low := reaches.1
  have start := lies.start
  obtain ⟨above, feed⟩ : ∃ above, before = above ++ ['\n'] := by
    rcases lies.opens with empty | feed
    · rw [empty, Text.size_nil] at start
      omega
    · exact ⟨_, (List.dropLast_append_getLast? _ feed).symm⟩
  have one : Text.size ['\n'] = 1 := rfl
  have size := congrArg Text.size feed
  rw [Text.size_append, one] at size
  obtain ⟨before', after', parts', lies', reaches', _⟩ :=
    coherent.lies_lineAt (show (s.doc.lineAt pos).start - 1 ≤ s.doc.size by omega)
  have low' := reaches'.1
  by_contra beyond
  -- the line feed in front of the line would be on the line above
  refine lies'.single (Text.mem_of_mem_touched parts' (Nat.le_of_eq lies'.start.symm)
    (Nat.le_of_eq lies'.stop) (Text.mem_touched.mpr ⟨above,
      (s.doc.lineAt pos).text ++ after, ?_, ?_, ?_, ?_⟩))
  · rw [parts, feed]
    simp only [List.append_assoc, List.cons_append, List.nil_append]
  · omega
  · have feed_size : '\n'.utf8Size = 1 := rfl
    omega
  · omega

end EditState.Coherent

namespace Enter

variable {s : EditState} {r : Range} {x : Site} {e : RangeEdit} {f : Frame} {q item : Place}

theorem site_item (coherent : s.Coherent) (range : r ∈ s.selection.ranges)
    (found : site s r = .ok x) (member : f ∈ x.inner :: x.outer) (shown : f.item = some q) :
    f.node.In (Tree.ofText s.text) ∧ q ∈ f.node.items ∧ x.pos ≤ q.stop := by
  obtain ⟨p, encloses, frame⟩ := site_frame found member
  obtain ⟨rfl, kind, parent⟩ := Frame.item_of_ofNode? frame shown
  obtain ⟨ancestor, isNode⟩ := List.mem_filter.mp encloses
  have reaches := (coherent.inside r range).2
  rw [coherent.resolve_eq r.head] at ancestor
  have listed : q.In (Tree.ofText s.text) → q ∈ f.node.items := fun q_inside =>
    List.mem_filter.mpr ⟨Place.mem_children_of_parent q_inside parent, by simp [isNode, kind]⟩
  rcases @Tree.resolve_leaf s.text s.doc.lineBreak _ reaches with
    root | ⟨leaf, leaf_member, low, high, above⟩
  · rw [root] at ancestor
    have same : q = Place.root (Tree.ofText s.text) := by
      simpa [Place.ancestors, Place.around, Place.root] using ancestor
    rw [same] at parent
    cases parent
  · have leaf_inside := (Place.root_in (Tree.ofText s.text)).leaf leaf_member
    have place_inside := leaf_inside.ancestor above
    have inner := Place.span_of_ancestor leaf_inside above
    have outer := Place.span_of_ancestor place_inside ancestor
    have q_inside := place_inside.ancestor ancestor
    refine ⟨q_inside.parent parent, listed q_inside, ?_⟩
    rw [site_pos found]
    omega

theorem frames_nested (found : site s r = .ok x) : (x.inner :: x.outer).Pairwise fun f g =>
    ∀ p q, f.item = some p → g.item = some q → q ∈ Place.around p.tree p.above := by
  obtain ⟨_, _, _, frames, _⟩ := site_ok found
  rw [← frames, Frame.around, List.filterMap_reverse, List.reverse_reverse]
  refine List.Pairwise.sublist (List.dropWhile_sublist _) (List.Pairwise.filterMap _ ?_
    ((Place.ancestors_nested _).filter _))
  intro a b above f shown g shown' p q item item'
  obtain ⟨rfl, _⟩ := Frame.item_of_ofNode? shown item
  obtain ⟨rfl, _⟩ := Frame.item_of_ofNode? shown' item'
  exact above

theorem leaveItem_eq (x : Site) (d : Document) (item : Place) : ∃ insert opening,
    x.leaveItem d item = ⟨⟨min (x.line.start + x.outdentColumn) x.pos, x.pos, insert⟩ ::
        ((if x.inner.isOrdered then renumber item d (-2) else []) ++ opening),
      Range.caret (min (x.line.start + x.outdentColumn) x.pos + insert.size)⟩ ∧
    (opening = [] ∨ ∃ next outer, x.outer.head? = some next ∧ next.item = some outer ∧
      next.isOrdered = true ∧ opening = renumber outer d 0) := by
  cases nearest : x.outer.head? with
  | none =>
    refine ⟨[], [], ?_, Or.inl rfl⟩
    simp only [Site.leaveItem, Site.outdentColumn, nearest, Nat.add_zero]
  | some next =>
    cases around : next.item with
    | none =>
      refine ⟨[], [], ?_, Or.inl rfl⟩
      simp [Site.leaveItem, Site.outdentColumn, nearest, around]
    | some outer =>
      cases ordered : next.isOrdered with
      | false =>
        refine ⟨next.marker d 1, [], ?_, Or.inl rfl⟩
        simp [Site.leaveItem, Site.outdentColumn, nearest, around, ordered]
      | true =>
        refine ⟨next.marker d 1, renumber outer d 0, ?_, Or.inr ⟨next, outer, rfl, around, ordered, rfl⟩⟩
        simp [Site.leaveItem, Site.outdentColumn, nearest, around, ordered]

namespace Site

/-- The caret's line and the one above it are lines of a quote with nothing on them but its mark, and
the one above ends with that mark. -/
def ClosesQuote (x : Site) (d : Document) : Prop :=
  x.inner.isQuote = true ∧ x.isEmptyLine = true ∧ 0 < x.line.start ∧
    quoteTail? (d.lineAt (x.line.start - 1)).text = some x.inner.start

/-- An empty item, neither the first of its list nor below a blank line, makes room for a blank line.
-/
def BlanksLine (x : Site) (d : Document) : Prop :=
  x.inner.item.isSome = true ∧ x.isEmptyLine = true ∧ (x.inFirstItem || x.afterBlank d) = false

def quoteChanges (x : Site) (d : Document) : List Change :=
  let above := d.lineAt (x.line.start - 1)
  [Change.delete (above.start + x.inner.start) above.stop,
    Change.delete (x.line.start + x.inner.start) x.line.stop]

end Site

theorem editAt_paths (s : EditState) (x : Site) :
    (x.BlanksLine s.doc ∧ editAt s x = .ok (x.blankLine s.lineBreak)) ∨
    ¬x.BlanksLine s.doc ∧
      ((∃ item, x.inner.item = some item ∧ editAt s x = .ok (x.leaveItem s.doc item)) ∨
        (x.ClosesQuote s.doc ∧ ∀ set,
          ChangeSet.ofChanges (x.quoteChanges s.doc) s.doc.size = .ok set →
          editAt s x = .ok ⟨set.changes, (Range.caret x.pos).map set⟩) ∨
        editAt s x = x.split s) := by
  unfold editAt Site.BlanksLine
  cases shown : x.inner.item with
  | some item =>
    cases empty : x.isEmptyLine with
    | true =>
      cases leaves : x.inFirstItem || x.afterBlank s.doc with
      | true => exact Or.inr ⟨by simp, Or.inl ⟨item, rfl, if_pos rfl⟩⟩
      | false => exact Or.inl ⟨by simp, if_neg Bool.false_ne_true⟩
    | false => exact Or.inr ⟨by simp, Or.inr (Or.inr (by simp))⟩
  | none =>
    refine Or.inr ⟨by simp, Or.inr ?_⟩
    dsimp only
    by_cases ends : (x.inner.isQuote && x.isEmptyLine && decide (0 < x.line.start)) = true
    · rw [if_pos ends]
      simp only [Bool.and_eq_true, decide_eq_true_eq] at ends
      by_cases above : quoteTail? (s.doc.lineAt (x.line.start - 1)).text = some x.inner.start
      · refine Or.inl ⟨⟨ends.1.1, ends.1.2, ends.2, above⟩, fun set made => ?_⟩
        rw [Site.quoteChanges] at made
        simp only [Site.closeQuote?, above, ↓reduceIte, made]
        rfl
      · exact Or.inr (by simp [Site.closeQuote?, above])
    · exact Or.inr (if_neg ends)

variable (coherent : s.Coherent) (range : r ∈ s.selection.ranges) (found : site s r = .ok x)

include coherent range found

theorem numbers_behind (member : f ∈ x.inner :: x.outer) (shown : f.item = some q)
    (ordered : f.isOrdered = true) (offset : Int) :
    Change.NumbersBetween s.text q.stop f.node.stop (renumber q s.doc offset) ∧ x.pos ≤ q.stop ∧
      f.node.stop ≤ s.doc.size := by
  obtain ⟨list_inside, listed, reach⟩ := site_item coherent range found member shown
  rw [Frame.isOrdered, beq_iff_eq] at ordered
  have numbers := @Change.numbersBetween_renumber s.text s.doc.lineBreak offset q f.node list_inside
    ordered listed
  rw [← coherent.doc] at numbers
  exact ⟨numbers, reach, list_inside.stop_le⟩

theorem list_stop_le {next : Frame} {outer : Place} (shown : x.inner.item = some item)
    (nearest : x.outer.head? = some next) (around : next.item = some outer) :
    item.stop ≤ x.inner.node.stop ∧ x.inner.node.stop ≤ outer.stop := by
  obtain ⟨list_inside, listed, _⟩ := site_item coherent range found List.mem_cons_self shown
  have child := (List.mem_filter.mp listed).1
  have above := List.rel_of_pairwise_cons (frames_nested found)
    (List.mem_of_mem_head? nearest) item outer shown around
  have lists := Place.ancestors_of_mem_children child
  rw [Place.ancestors, List.cons.injEq] at lists
  rw [lists.2] at above
  exact ⟨(Place.span_of_mem_children child).2, (Place.span_of_ancestor list_inside above).2⟩

/-- What leaving an item closes up is inside the item around its list, and what that item makes room
for is behind it. -/
theorem leaveItem_numbers (shown : x.inner.item = some item) {opening : List Change}
    (counted : opening = [] ∨ ∃ next outer, x.outer.head? = some next ∧ next.item = some outer ∧
      next.isOrdered = true ∧ opening = renumber outer s.doc 0) :
    Change.NumbersBetween s.text x.pos s.doc.size
      ((if x.inner.isOrdered then renumber item s.doc (-2) else []) ++ opening) := by
  have closing : ∀ high, x.inner.node.stop ≤ high → Change.NumbersBetween s.text x.pos high
      (if x.inner.isOrdered then renumber item s.doc (-2) else []) := by
    intro high above
    split
    · rename_i ordered
      obtain ⟨numbers, reach, _⟩ :=
        numbers_behind coherent range found List.mem_cons_self shown ordered (-2)
      exact numbers.mono reach above
    · exact Change.numbersBetween_nil
  rcases counted with rfl | ⟨next, outer, nearest, around, ordered, rfl⟩
  · obtain ⟨list_inside, _, _⟩ := site_item coherent range found List.mem_cons_self shown
    rw [List.append_nil]
    exact closing _ list_inside.stop_le
  · have member := List.mem_cons_of_mem x.inner (List.mem_of_mem_head? nearest)
    obtain ⟨numbers, reach, high⟩ := numbers_behind coherent range found member around ordered 0
    have within := (list_stop_le coherent range found shown nearest around).2
    have listed := (site_item coherent range found member around).2.1
    have up := (Place.span_of_mem_children (List.mem_filter.mp listed).1).2
    exact (closing _ within).append (numbers.mono (Nat.le_refl _) high) reach (Nat.le_trans up high)

/-- An edit at a site with one change that ends at the caret, behind the text of which it leaves the
caret, and numbers behind the caret. -/
structure Clears (s : EditState) (x : Site) (e : RangeEdit) (own : Change) (numbers : List Change) :
    Prop where
  surrounds : e.Surrounds x.pos s.doc.size own numbers
  numbers : ∀ c ∈ numbers, c.Renumbers s.text x.pos
  start : x.line.start ≤ own.start
  stop : own.stop = x.pos
  range : e.range = Range.caret (own.start + own.insert.size)

theorem leaveItem_clears (shown : x.inner.item = some item) :
    ∃ own numbers, Clears s x (x.leaveItem s.doc item) own numbers := by
  have sound := site_sound coherent (coherent.inside r range) found
  obtain ⟨insert, opening, edit, counted⟩ := leaveItem_eq x s.doc item
  have numbers := leaveItem_numbers coherent range found shown counted
  generalize (if x.inner.isOrdered then renumber item s.doc (-2) else []) ++ opening = behind
    at edit numbers
  obtain ⟨low, -, -⟩ := coherent.line_span sound.inside
  rw [← sound.line] at low
  rw [edit]
  refine ⟨⟨min (x.line.start + x.outdentColumn) x.pos, x.pos, insert⟩, behind, ?_, ?_, ?_, rfl, rfl⟩
  · exact numbers.surrounds (fun c => List.mem_cons) (Nat.min_le_right _ _) rfl sound.inside
  · exact fun c member => (numbers.each c member).1
  · dsimp only
    omega

theorem split_clears (made : x.split s = .ok e) : ∃ own numbers, Clears s x e own numbers := by
  have sound := site_sound coherent (coherent.inside r range) found
  obtain ⟨_, blank, _, _, _, pos, _⟩ := split_span coherent sound made
  have order : (x.lineSplit s).start ≤ x.pos := Nat.le.intro pos.symm
  obtain ⟨counted, numbers, rfl⟩ : ∃ counted, Change.NumbersBetween s.text x.pos s.doc.size counted ∧
      e = ⟨counted ++ [x.lineSplit s],
        Range.caret ((x.lineSplit s).start + (x.lineSplit s).insert.size)⟩ := by
    unfold Site.split at made
    split at made
    · cases made
      refine ⟨_, ?_, rfl⟩
      split
      · rename_i shown ordered
        obtain ⟨numbers, reach, high⟩ :=
          numbers_behind coherent range found List.mem_cons_self shown ordered 0
        exact numbers.mono reach high
      · exact Change.numbersBetween_nil
    · cases made
  refine ⟨x.lineSplit s, counted, numbers.surrounds (fun c => ?_) order rfl sound.inside,
    fun c member => (numbers.each c member).1, Nat.le_add_right _ _, rfl, rfl⟩
  rw [List.mem_append, List.mem_singleton, or_comm]

variable (apart : ¬s.text.SplitsBreak x.pos)

include apart

theorem site_bounds : x.line.start ≤ x.pos ∧ x.pos ≤ x.line.stop ∧ x.line.stop ≤ s.doc.size := by
  have sound := site_sound coherent (coherent.inside r range) found
  rw [sound.line]
  exact coherent.line_bounds sound.inside apart

/-- An edit at a site with one change of its own on the caret's line, up to the caret or beyond, and
numbers behind the caret. -/
structure Local (s : EditState) (x : Site) (e : RangeEdit) (own : Change) (numbers : List Change) :
    Prop where
  surrounds : e.Surrounds x.pos s.doc.size own numbers
  on_line : own.OnLine x.line
  numbers : ∀ c ∈ numbers, c.Renumbers s.text x.pos

theorem Clears.on_line {own : Change} {numbers : List Change} (clears : Clears s x e own numbers) :
    Local s x e own numbers where
  surrounds := clears.surrounds
  on_line := by
    have bounds := site_bounds coherent range found apart
    have order := clears.surrounds.low
    have stop := clears.stop
    exact ⟨clears.start, by omega, by omega⟩
  numbers := clears.numbers

theorem blankLine_local (lineBreak : Text) : ∃ own, Local s x (x.blankLine lineBreak) own [] ∧
    own = ⟨x.line.start, x.line.stop, lineBreak ++ x.line.text.takeWhile isWhite⟩ := by
  obtain ⟨low, high, inside⟩ := site_bounds coherent range found apart
  refine ⟨_, ⟨⟨?_, low, high, inside, ?_, List.Pairwise.nil⟩, ?_, ?_⟩, rfl⟩
  · intro c
    simp [Site.blankLine]
  · exact fun c member => absurd member List.not_mem_nil
  · exact ⟨Nat.le_refl _, Nat.le_trans low high, Nat.le_refl _⟩
  · exact fun c member => absurd member List.not_mem_nil

theorem quoteChanges_local (closes : x.ClosesQuote s.doc) :
    (x.quoteChanges s.doc).Pairwise Change.Before ∧ ∀ c ∈ x.quoteChanges s.doc,
      (c.start ≤ c.stop ∧ c.stop ≤ s.doc.size) ∧
        (c.OnLine x.line ∨ c.OnLine (s.doc.lineAt (x.line.start - 1))) := by
  obtain ⟨low, high, inside⟩ := site_bounds coherent range found apart
  obtain ⟨_, pos, line, frames, _⟩ := site_ok found
  obtain ⟨_, _, later, tail⟩ := closes
  have sound := site_sound coherent (coherent.inside r range) found
  have above := coherent.stop_above sound.inside (by rw [← sound.line]; exact later)
  rw [← sound.line] at above
  have inner : x.line.start + x.inner.start ≤ x.pos := by
    have head := List.head?_dropWhile_not
      (fun f : Frame => decide (r.head - (s.doc.lineAt r.head).start < f.start))
      (Frame.around (s.tree.resolve s.doc r.head) s.doc).reverse
    rw [frames] at head
    simp only [List.head?_cons, decide_eq_false_iff_not, Nat.not_lt] at head
    rw [← pos] at line head
    rw [line] at low ⊢
    omega
  have mark : (s.doc.lineAt (x.line.start - 1)).start + x.inner.start ≤
      (s.doc.lineAt (x.line.start - 1)).stop := by
    obtain ⟨held, blank, text, size, _⟩ := quoteTail?_parts tail
    obtain ⟨_, _, _, lies, _⟩ := coherent.lies_lineAt (show x.line.start - 1 ≤ s.doc.size by omega)
    rw [lies.stop, lies.start, text, Text.size_append]
    omega
  have first : (Change.delete ((s.doc.lineAt (x.line.start - 1)).start + x.inner.start)
      (s.doc.lineAt (x.line.start - 1)).stop).Before
        (Change.delete (x.line.start + x.inner.start) x.line.stop) := by
    simp only [Change.delete, Change.Before]
    omega
  refine ⟨List.pairwise_pair.mpr first, fun c member => ?_⟩
  rcases List.mem_cons.mp member with rfl | member
  · refine ⟨⟨mark, ?_⟩, Or.inr ⟨Nat.le_add_right _ _, mark, Nat.le_refl _⟩⟩
    simp only [Change.delete]
    omega
  · rw [List.mem_singleton.mp member]
    exact ⟨⟨Nat.le_trans inner high, inside⟩,
      Or.inl ⟨Nat.le_add_right _ _, Nat.le_trans inner high, Nat.le_refl _⟩⟩

/-- An edit at a site has one change of its own, up to the caret but for a blanked line, or it ends a
quote. -/
theorem editAt_parts (made : editAt s x = .ok e) :
    (∃ own numbers, Local s x e own numbers ∧
      (x.BlanksLine s.doc ∧ e = x.blankLine s.lineBreak ∧
          own = ⟨x.line.start, x.line.stop, s.lineBreak ++ x.line.text.takeWhile isWhite⟩ ∨
        ¬x.BlanksLine s.doc ∧ own.stop = x.pos ∧
          e.range = Range.caret (own.start + own.insert.size))) ∨
    ¬x.BlanksLine s.doc ∧ x.ClosesQuote s.doc ∧
      e.changes = (x.quoteChanges s.doc).filter (!·.isNoop) ∧
      e.range = Range.caret
        (ChangeSet.mapPos ⟨(x.quoteChanges s.doc).filter (!·.isNoop), s.doc.size⟩ x.pos .before) := by
  rcases editAt_paths s x with ⟨blanks, edit⟩ | ⟨kept, ⟨item, shown, edit⟩ | ⟨closes, edit⟩ | edit⟩
  · rw [edit] at made
    cases made
    obtain ⟨own, parts, same⟩ := blankLine_local coherent range found apart s.lineBreak
    exact Or.inl ⟨own, [], parts, Or.inl ⟨blanks, rfl, same⟩⟩
  · rw [edit] at made
    cases made
    obtain ⟨own, numbers, clears⟩ := leaveItem_clears coherent range found shown
    exact Or.inl ⟨own, numbers, clears.on_line coherent range found apart,
      Or.inr ⟨kept, clears.stop, clears.range⟩⟩
  · obtain ⟨before, each⟩ := quoteChanges_local coherent range found apart closes
    rw [edit _ (ChangeSet.ofChanges_of_before before fun c member => (each c member).1)] at made
    cases made
    refine Or.inr ⟨kept, closes, rfl, ?_⟩
    simp [Range.map, Range.isCaret, Range.caret]
  · rw [edit] at made
    obtain ⟨own, numbers, clears⟩ := split_clears coherent range found made
    exact Or.inl ⟨own, numbers, clears.on_line coherent range found apart,
      Or.inr ⟨kept, clears.stop, clears.range⟩⟩

/-- The changes of an edit at a site are accepted, and each is on the caret's line or the line above,
or is a number behind the caret. -/
theorem editAt_local (made : editAt s x = .ok e) : ∃ set target,
    ChangeSet.ofChanges e.changes s.doc.size = .ok set ∧ e.range = Range.caret target ∧
    ∀ c ∈ set.changes, c.OnLine x.line ∨
      (x.ClosesQuote s.doc ∧ c.OnLine (s.doc.lineAt (x.line.start - 1))) ∨
      c.Renumbers s.text x.pos := by
  rcases editAt_parts coherent range found apart made with
    ⟨own, numbers, parts, ends⟩ | ⟨_, closes, changes, caret⟩
  · have accepted := parts.surrounds.ofChanges_eq
    have each : ∀ c ∈ (own :: numbers).filter (!·.isNoop), c.OnLine x.line ∨
        (x.ClosesQuote s.doc ∧ c.OnLine (s.doc.lineAt (x.line.start - 1))) ∨
        c.Renumbers s.text x.pos := by
      intro c member
      rcases List.mem_cons.mp (List.mem_filter.mp member).1 with rfl | member
      · exact Or.inl parts.on_line
      · exact Or.inr (Or.inr (parts.numbers c member))
    rcases ends with ⟨_, rfl, _⟩ | ⟨_, _, caret⟩
    · exact ⟨_, _, accepted, rfl, each⟩
    · exact ⟨_, _, accepted, caret, each⟩
  · obtain ⟨before, each⟩ := quoteChanges_local coherent range found apart closes
    have accepted := ChangeSet.ofChanges_of_before (before.filter (!·.isNoop)) fun c member =>
      (each c (List.mem_filter.mp member).1).1
    rw [← changes] at accepted
    refine ⟨_, _, accepted, caret, fun c member => ?_⟩
    have member := (List.mem_filter.mp member).1
    rw [changes] at member
    rcases (each c (List.mem_filter.mp member).1).2 with on_line | above
    · exact Or.inl on_line
    · exact Or.inr (Or.inl ⟨closes, above⟩)

theorem editAt_ne_conflict : editAt s x ≠ .error (.declined .conflictingChanges) := by
  rcases editAt_paths s x with ⟨_, edit⟩ | ⟨_, ⟨item, _, edit⟩ | ⟨closes, edit⟩ | edit⟩
  · rw [edit]
    rintro ⟨⟩
  · rw [edit]
    rintro ⟨⟩
  · obtain ⟨before, each⟩ := quoteChanges_local coherent range found apart closes
    rw [edit _ (ChangeSet.ofChanges_of_before before fun c member => (each c member).1)]
    rintro ⟨⟩
  · rw [edit, Site.split]
    split <;> rintro ⟨⟩

omit coherent range found apart in
theorem site_ne_conflict (s : EditState) (r : Range) : site s r ≠ .error .conflictingChanges := by
  unfold site
  dsimp only
  repeat' split
  all_goals rintro ⟨⟩

end Enter

namespace Backspace

variable {s : EditState} {pos : Nat} {f : Frame} {e : RangeEdit}

/-- The only change of the edit is on the caret's line around the caret, which goes to the end of
the text put in. -/
structure Alone (s : EditState) (pos : Nat) (e : RangeEdit) (c : Change) : Prop where
  changes : e.changes = [c]
  on_line : c.OnLine (s.doc.lineAt pos)
  low : c.start ≤ pos
  high : pos ≤ c.stop
  touch : c.start < pos ∨ c.stop = pos
  caret : e.range = Range.caret (c.start + c.insert.size)

theorem Alone.surrounds {c : Change} (alone : Alone s pos e c)
    (inside : (s.doc.lineAt pos).stop ≤ s.doc.size) : e.Surrounds pos s.doc.size c [] where
  changes d := by simp [alone.changes]
  low := alone.low
  high := alone.high
  reach := Nat.le_trans alone.on_line.2.2 inside
  ahead _ member := absurd member List.not_mem_nil
  apart := List.Pairwise.nil

variable (coherent : s.Coherent) (inside : pos ≤ s.doc.size) (apart : ¬s.text.SplitsBreak pos)

include coherent inside apart

theorem delete_alone {start : Nat} (low : (s.doc.lineAt pos).start ≤ start) (high : start ≤ pos) :
    Alone s pos ⟨[Change.delete start pos], Range.caret start⟩ (Change.delete start pos) where
  changes := rfl
  on_line := ⟨low, high, (coherent.line_bounds inside apart).2.1⟩
  low := high
  high := Nat.le_refl _
  touch := Or.inr rfl
  caret := rfl

theorem blankMarker_alone {lead glyphs rest : Text}
    (on : f.On (s.doc.lineAt pos) lead glyphs rest)
    (column : pos - (s.doc.lineAt pos).start = spaceStop f) :
    ∃ c, Alone s pos (blankMarker s (s.doc.lineAt pos) f ((s.doc.lineAt pos).start + f.start)) c := by
  obtain ⟨low, _, _⟩ := coherent.line_bounds inside apart
  obtain ⟨_, _, _, lies, _⟩ := coherent.lies_lineAt inside
  have width := on.start_lt
  have reach := spaceStop_le (Nat.le_of_lt (by omega : f.after.size < f.stop))
  have behind : f.start < spaceStop f := by
    rw [spaceStop, Frame.markerStop]
    omega
  have stop : (s.doc.lineAt pos).start + f.stop ≤ (s.doc.lineAt pos).stop := by
    rw [lies.stop, lies.start, on.text_eq.1, Text.size_append, on.stop, Text.size_append,
      Text.size_append]
    omega
  refine ⟨_, rfl, ⟨Nat.le_add_right _ _, ?_, stop⟩, ?_, ?_, Or.inl ?_, rfl⟩
  · dsimp only
    omega
  · dsimp only
    omega
  · dsimp only
    omega
  · dsimp only
    omega

theorem edit_alone (made : edit s (Range.caret pos) = .ok e) : ∃ c, Alone s pos e c := by
  have makes : Makes s pos e := edit_makes coherent ⟨inside, inside⟩ made
  cases makes with
  | takes low high => exact ⟨_, delete_alone coherent inside apart low (Nat.le_of_lt high)⟩
  | blanks _ _ on column => exact blankMarker_alone coherent inside apart on column

omit coherent inside apart in
theorem edit_ne_conflict (s : EditState) (r : Range) : edit s r ≠ .error .conflictingChanges := by
  have marker (pos : Nat) : deleteAfterMarkup s pos ≠ .error .conflictingChanges := by
    cases found : frame? s pos with
    | none =>
      rw [frame?] at found
      rw [deleteAfterMarkup, found]
      rintro ⟨⟩
    | some f =>
      rw [deleteAfterMarkup_eq found]
      repeat' split
      all_goals rintro ⟨⟩
  unfold edit
  split
  · rintro ⟨⟩
  · split
    · rintro ⟨⟩
    · split
      · rintro ⟨⟩
      · rename_i why failed
        split
        · rintro ⟨⟩
        · rintro ⟨⟩
          exact marker _ failed

end Backspace

section Run

variable {s : EditState} {pos : Nat} {tr : Transaction} (coherent : s.Coherent)
  (only : s.selection.ranges = [Range.caret pos]) (apart : ¬s.text.SplitsBreak pos)

include coherent only

theorem EditState.Coherent.caret_inside : pos ≤ s.doc.size :=
  (coherent.inside (Range.caret pos) (by simp [only])).2

include apart

theorem Enter.edit_caret {e : RangeEdit} (edited : edit s (Range.caret pos) = .ok e) :
    ∃ x set target, site s (Range.caret pos) = .ok x ∧ editAt s x = .ok e ∧
      ChangeSet.ofChanges e.changes s.doc.size = .ok set ∧ e.range = Range.caret target ∧
      ∀ c ∈ set.changes, c.OnLine (s.doc.lineAt pos) ∨
        (x.ClosesQuote s.doc ∧ c.OnLine (s.doc.lineAt ((s.doc.lineAt pos).start - 1))) ∨
        c.Renumbers s.text pos := by
  have range : Range.caret pos ∈ s.selection.ranges := by simp [only]
  obtain ⟨x, found, at_site⟩ := edit_ok.mp edited
  have same : x.pos = pos := site_pos found
  have line : x.line = s.doc.lineAt pos := by
    rw [(site_sound coherent (coherent.inside _ range) found).line, same]
  obtain ⟨set, target, accepted, caret, each⟩ :=
    editAt_local coherent range found (by rw [same]; exact apart) at_site
  rw [line, same] at each
  exact ⟨x, set, target, found, at_site, accepted, caret, each⟩

theorem Enter.run_caret (made : run s = .ok tr) : ∃ x e target,
    site s (Range.caret pos) = .ok x ∧ editAt s x = .ok e ∧
      ChangeSet.ofChanges e.changes s.doc.size = .ok tr.changes ∧ e.range = Range.caret target ∧
      tr.selection = some (Selection.caret target) ∧
      ∀ c ∈ tr.changes.changes, c.OnLine (s.doc.lineAt pos) ∨
        (x.ClosesQuote s.doc ∧ c.OnLine (s.doc.lineAt ((s.doc.lineAt pos).start - 1))) ∨
        c.Renumbers s.text pos := by
  obtain ⟨e, edited⟩ :=
    Transaction.byRange_each made (show Range.caret pos ∈ s.selection.ranges by simp [only])
  obtain ⟨x, set, target, found, at_site, accepted, caret, each⟩ :=
    edit_caret coherent only apart edited
  rw [run, Transaction.byRange_caret only edited accepted caret] at made
  cases made
  exact ⟨x, e, target, found, at_site, accepted, caret, rfl, each⟩

theorem Backspace.edit_caret {e : RangeEdit}
    (edited : (edit s (Range.caret pos)).mapError Refusal.declined = .ok e) :
    ∃ set c, Alone s pos e c ∧ ChangeSet.ofChanges e.changes s.doc.size = .ok set := by
  obtain ⟨c, alone⟩ :=
    edit_alone coherent (coherent.caret_inside only) apart (Refusal.ok_of_mapError edited)
  have bounds := coherent.line_bounds (coherent.caret_inside only) apart
  exact ⟨_, c, alone, (alone.surrounds bounds.2.2).ofChanges_eq⟩

theorem Backspace.run_caret (made : run s = .ok tr) : ∃ e c, Alone s pos e c ∧
    ChangeSet.ofChanges e.changes s.doc.size = .ok tr.changes ∧
    tr.selection = some (Selection.caret (c.start + c.insert.size)) := by
  obtain ⟨e, edited⟩ :=
    Transaction.byRange_each made (show Range.caret pos ∈ s.selection.ranges by simp [only])
  obtain ⟨set, c, alone, accepted⟩ := edit_caret coherent only apart edited
  rw [run, Transaction.byRange_caret only edited accepted alone.caret] at made
  cases made
  exact ⟨e, c, alone, accepted, rfl⟩

theorem Enter.run_ne_conflict : run s ≠ .error (.declined .conflictingChanges) := by
  have range : Range.caret pos ∈ s.selection.ranges := by simp [only]
  intro failed
  cases edited : edit s (Range.caret pos) with
  | error why =>
    rw [run, Transaction.byRange_refused only edited] at failed
    cases failed
    cases found : site s (Range.caret pos) with
    | error why =>
      rw [edit, found] at edited
      cases edited
      exact site_ne_conflict s _ found
    | ok x =>
      have same : x.pos = pos := site_pos found
      rw [edit, found] at edited
      exact editAt_ne_conflict coherent range found (by rw [same]; exact apart) edited
  | ok e =>
    obtain ⟨x, set, target, _, _, accepted, caret, _⟩ := edit_caret coherent only apart edited
    rw [run, Transaction.byRange_caret only edited accepted caret] at failed
    cases failed

theorem Backspace.run_ne_conflict : run s ≠ .error (.declined .conflictingChanges) := by
  intro failed
  cases edited : (edit s (Range.caret pos)).mapError Refusal.declined with
  | error why =>
    rw [run, Transaction.byRange_refused only edited] at failed
    cases failed
    cases declined : edit s (Range.caret pos) with
    | ok e =>
      rw [declined] at edited
      cases edited
    | error why =>
      rw [declined] at edited
      cases edited
      exact edit_ne_conflict s _ declined
  | ok e =>
    obtain ⟨set, c, alone, accepted⟩ := edit_caret coherent only apart edited
    rw [run, Transaction.byRange_caret only edited accepted alone.caret] at failed
    cases failed

/-- At a single caret Enter and Backspace never refuse their own changes. Those of Enter are on the
caret's line, on the line above when a quote ends, or numbers of items that begin behind the caret;
those of Backspace are on the caret's line. -/
theorem keys_local :
    (Enter.run s ≠ .error (.declined .conflictingChanges) ∧
      ∀ tr, Enter.run s = .ok tr → ∀ c ∈ tr.changes.changes, c.OnLine (s.doc.lineAt pos) ∨
        (∃ x, Enter.site s (Range.caret pos) = .ok x ∧ x.ClosesQuote s.doc ∧
          c.OnLine (s.doc.lineAt ((s.doc.lineAt pos).start - 1))) ∨
        c.Renumbers s.text pos) ∧
    (Backspace.run s ≠ .error (.declined .conflictingChanges) ∧
      ∀ tr, Backspace.run s = .ok tr → ∀ c ∈ tr.changes.changes, c.OnLine (s.doc.lineAt pos)) := by
  refine ⟨⟨Enter.run_ne_conflict coherent only apart, fun tr made c member => ?_⟩,
    Backspace.run_ne_conflict coherent only apart, fun tr made c member => ?_⟩
  · obtain ⟨x, e, target, found, _, _, _, _, each⟩ := Enter.run_caret coherent only apart made
    rcases each c member with on_line | ⟨closes, above⟩ | number
    · exact Or.inl on_line
    · exact Or.inr (Or.inl ⟨x, found, closes, above⟩)
    · exact Or.inr (Or.inr number)
  · obtain ⟨e, d, alone, accepted, _⟩ := Backspace.run_caret coherent only apart made
    obtain ⟨among, _⟩ := (ChangeSet.mem_ofChanges accepted).mp member
    rw [alone.changes, List.mem_singleton] at among
    rw [among]
    exact alone.on_line

end Run

def emptyNested : EditState :=
  .ofText ['1', '.', ' ', 'a', '\n', ' ', ' ', ' ', '1', '.', ' ', '\n', ' ', ' ', ' ', '2', '.', ' ',
    'b', '\n', '2', '.', ' ', 'c'] (Selection.caret 11) {}

theorem emptyNested_local :
    (∃ tr, Enter.run emptyNested = .ok tr ∧
      tr.changes.changes = [⟨5, 11, ['2', '.', ' ']⟩, ⟨15, 16, ['1']⟩, ⟨20, 21, ['3']⟩] ∧
      ∀ c ∈ tr.changes.changes, c.OnLine (emptyNested.doc.lineAt 11) ∨
        (∃ x, Enter.site emptyNested (Range.caret 11) = .ok x ∧ x.ClosesQuote emptyNested.doc ∧
          c.OnLine (emptyNested.doc.lineAt ((emptyNested.doc.lineAt 11).start - 1))) ∨
        c.Renumbers emptyNested.text 11) ∧
    ∃ tr, Backspace.run emptyNested = .ok tr ∧
      tr.changes.changes = [⟨8, 11, [' ', ' ', ' ']⟩] ∧
      ∀ c ∈ tr.changes.changes, c.OnLine (emptyNested.doc.lineAt 11) := by
  have entered : Enter.run emptyNested =
      .ok ⟨⟨[⟨5, 11, ['2', '.', ' ']⟩, ⟨15, 16, ['1']⟩, ⟨20, 21, ['3']⟩], 24⟩,
        some (Selection.caret 8)⟩ := by cbv
  have deleted : Backspace.run emptyNested =
      .ok ⟨⟨[⟨8, 11, [' ', ' ', ' ']⟩], 24⟩, some (Selection.caret 11)⟩ := by cbv
  have only : emptyNested.selection.ranges = [Range.caret 11] := by cbv
  have apart : ¬emptyNested.text.SplitsBreak 11 := Text.not_splitsBreak (by decide)
  obtain ⟨⟨_, enter⟩, _, backspace⟩ := keys_local (EditState.coherent_ofText _ _ _) only apart
  exact ⟨⟨_, entered, rfl, enter _ entered⟩, _, deleted, rfl, backspace _ deleted⟩

end MarkdownEditing

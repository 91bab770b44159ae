import MarkdownEditing.Proofs.Edit.Carried
import MarkdownEditing.Proofs.Markup.Carets
import MarkdownEditing.Proofs.Markup.Counting

namespace MarkdownEditing

namespace Enter

variable {s s' : EditState} {tr : Transaction} {r : Range} {x y : Site} {p q list : Place}
  {c : Change} {digits : Text} {glyph : Char}

theorem editAt_filled (filled : x.isEmptyLine = false) : editAt s x = x.split s := by
  rcases editAt_cases s x with ⟨empty, _⟩ | ⟨edit, _⟩
  · rw [filled] at empty
    cases empty
  · exact edit

/-- Enter splits the line of every caret, as none is taken for an empty one. -/
structure SplitsLines (s : EditState) (tr : Transaction) : Prop where
  coherent : s.Coherent
  made : run s = .ok tr
  filled : ∀ r ∈ s.selection.ranges, ∀ x, site s r = .ok x → x.isEmptyLine = false

namespace SplitsLines

theorem exists_edit (splits : SplitsLines s tr) (range : r ∈ s.selection.ranges)
    (found : site s r = .ok x) : ∃ e, edit s r = .ok e ∧ x.split s = .ok e := by
  obtain ⟨_, e, edited, at_site⟩ := site_edit splits.coherent splits.made range found
  rw [editAt_filled (splits.filled r range x found)] at at_site
  exact ⟨e, edited, at_site⟩

theorem mem_changes (splits : SplitsLines s tr) : c ∈ tr.changes.changes ↔
    c.isNoop = false ∧ ∃ r ∈ s.selection.ranges, ∃ x, site s r = .ok x ∧
      (c = x.lineSplit s ∨
        ∃ item, x.inner.item = some item ∧ x.inner.isOrdered = true ∧
          c ∈ renumber item s.doc 0) := by
  rw [Transaction.mem_byRange splits.made]
  constructor
  · rintro ⟨⟨r, range, e, edited, inside⟩, effective⟩
    obtain ⟨x, found, at_site⟩ := edit_ok.mp edited
    rw [editAt_filled (splits.filled r range x found)] at at_site
    exact ⟨effective, r, range, x, found, (split_changes_eq at_site).mp inside⟩
  · rintro ⟨effective, r, range, x, found, shape⟩
    obtain ⟨e, edited, at_site⟩ := splits.exists_edit range found
    exact ⟨⟨r, range, e, edited, (split_changes_eq at_site).mpr shape⟩, effective⟩

theorem keeps_mark (splits : SplitsLines s tr) (range : r ∈ s.selection.ranges)
    (found : site s r = .ok x) (numbered : q.IsNumbered digits glyph)
    (inside : q.In (Tree.ofText s.text)) :
    x.trimStop ≤ x.pos ∧ (x.pos ≤ q.start ∨ q.start + (digits.size + 1) ≤ x.trimStop) := by
  obtain ⟨e, _, made⟩ := splits.exists_edit range found
  exact split_keeps_mark splits.coherent range found made numbered inside

theorem ordered_item (splits : SplitsLines s tr) (range : r ∈ s.selection.ranges)
    (found : site s r = .ok x) (shown : x.inner.item = some p)
    (ordered : x.inner.isOrdered = true) :
    ∃ list : Place, list.In (Tree.ofText s.text) ∧ list.kind = .orderedList ∧ p ∈ list.items := by
  have inside := splits.coherent.inside r range
  obtain ⟨p', p_inside, isNode, frame, _⟩ := (site_sound splits.coherent inside found).inner
  obtain ⟨rfl, item, parent⟩ := Frame.item_of_ofNode? frame shown
  rw [Frame.isOrdered, beq_iff_eq] at ordered
  refine ⟨_, p_inside.parent parent, ordered, List.mem_filter.mpr ⟨?_, by simp [isNode, item]⟩⟩
  exact Place.mem_children_of_parent p_inside parent

/-- What counts a list anew gives an item the number after its own. -/
theorem renumber_change (splits : SplitsLines s tr) (range : r ∈ s.selection.ranges)
    (found : site s r = .ok x) (shown : x.inner.item = some p) (ordered : x.inner.isOrdered = true)
    (member : c ∈ renumber p s.doc 0) :
    ∃ (list q : Place) (digits : Text) (glyph : Char) (n : Nat), p ∈ list.items ∧
      q ∈ p.followingItems ∧ q ∈ list.items ∧ q.In (Tree.ofText s.text) ∧
      q.IsNumbered digits glyph ∧
      ItemNumber.ofItem? s.doc q.start = some ⟨0, digits.size, n⟩ ∧
      c = ⟨q.start, q.start + digits.size, Text.ofNat (n + 1)⟩ := by
  obtain ⟨list, inside, kind, item⟩ := splits.ordered_item range found shown ordered
  rw [renumber] at member
  split at member
  · cases member
  · obtain ⟨q, following, m, read, rfl⟩ := mem_renumberFrom member
    obtain ⟨front, items⟩ := Place.items_split item
    have in_list : q ∈ list.items := by
      rw [items]
      exact List.mem_append_right _ (List.mem_cons_of_mem _ following)
    obtain ⟨q_inside, digits, glyph, numbered⟩ := inside.numbered_of_mem_items kind in_list
    obtain ⟨n, _, value⟩ := numbered.exists_value
    obtain ⟨before, after, parts, size⟩ := numbered.exists_parts q_inside
    have reads := value s.doc before after (by rw [← List.append_assoc]; exact parts)
    rw [size, read] at reads
    cases reads
    exact ⟨list, q, digits, glyph, n, item, following, in_list, q_inside, numbered, read, rfl⟩

/-- No change touches the mark of an item, but for the one that gives it the next number. -/
theorem mark_cases (splits : SplitsLines s tr) (numbered : q.IsNumbered digits glyph)
    (inside : q.In (Tree.ofText s.text)) {n : Nat}
    (read : ItemNumber.ofItem? s.doc q.start = some ⟨0, digits.size, n⟩)
    (member : c ∈ tr.changes.changes) :
    c.stop ≤ q.start ∨ q.start + (digits.size + 1) ≤ c.start ∨
      (c = ⟨q.start, q.start + digits.size, Text.ofNat (n + 1)⟩ ∧
        ∃ (x : Site) (p list : Place), x.At s p ∧ p ∈ list.items ∧ q ∈ p.followingItems ∧
          q ∈ list.items) := by
  obtain ⟨_, r, range, x, found, rfl | ⟨p, shown, ordered, counted⟩⟩ := splits.mem_changes.mp member
  · exact (splits.keeps_mark range found numbered inside).2.imp_right Or.inl
  · obtain ⟨list, other, digits', glyph', k, item, following, in_list, other_inside, other_numbered,
      other_read, rfl⟩ := splits.renumber_change range found shown ordered counted
    rcases numbered.eq_or_apart other_numbered inside other_inside with rfl | before | behind
    · have same := Option.some.inj (other_read.symm.trans read)
      simp only [ItemNumber.mk.injEq, true_and] at same
      rw [same.1, same.2]
      exact Or.inr (Or.inr ⟨rfl, x, p, list, ⟨⟨r, range, found⟩, shown⟩, item, following, in_list⟩)
    · exact Or.inr (Or.inl before)
    · exact Or.inl (by dsimp only; omega)

theorem insertion_site (splits : SplitsLines s tr) (member : c ∈ tr.changes.changes)
    (empty : c.start = c.stop) :
    ∃ r ∈ s.selection.ranges, ∃ x, site s r = .ok x ∧ c = x.lineSplit s := by
  obtain ⟨_, r, range, x, found, same | ⟨p, shown, ordered, counted⟩⟩ :=
    splits.mem_changes.mp member
  · exact ⟨r, range, x, found, same⟩
  · obtain ⟨list, q, digits, glyph, n, _, _, _, _, numbered, _, rfl⟩ :=
      splits.renumber_change range found shown ordered counted
    have some_digit := numbered.size_pos
    dsimp only at empty
    omega

theorem insertion_unique (splits : SplitsLines s tr) {d : Change} (first : c ∈ tr.changes.changes)
    (second : d ∈ tr.changes.changes) (empty : c.start = c.stop) (empty' : d.start = d.stop)
    (same : c.stop = d.stop) : c = d := by
  obtain ⟨r, range, x, found, rfl⟩ := splits.insertion_site first empty
  obtain ⟨r', range', y, found', rfl⟩ := splits.insertion_site second empty'
  rw [site_unique found found' same]

theorem applied_changes (splits : SplitsLines s tr) :
    (∃ changes, ChangeSet.ofChanges changes s.text.size = .ok tr.changes) ∧
      tr.changes.changes.Pairwise Change.Before := by
  obtain ⟨changes, accepted⟩ := Transaction.byRange_ofChanges splits.made
  refine ⟨⟨changes, accepted⟩, ChangeSet.ofChanges_before accepted ?_⟩
  intro c first d second empty empty' same
  exact splits.insertion_unique first second empty empty' (by omega)

end SplitsLines

def Bumped (s : EditState) (list q : Place) : Prop :=
  ∃ p ∈ list.items, p.start < q.start ∧ ∃ x : Site, x.At s p

section Numbers

variable (splits : SplitsLines s tr) (inside : list.In (Tree.ofText s.text))
  (ordered : list.kind = .orderedList) (counted : Counted s.doc list.items)

include inside ordered

theorem item_facts (member : q ∈ list.items) :
    q.In (Tree.ofText s.text) ∧ ∃ digits glyph n, q.IsNumbered digits glyph ∧ n < ItemNumber.limit ∧
      ItemNumber.ofItem? s.doc q.start = some ⟨0, digits.size, n⟩ ∧
      ∀ (d : Document) (before rest : Text), d.text = before ++ (digits ++ [glyph] ++ rest) →
        d.numberAt? before.size = some n := by
  obtain ⟨q_inside, digits, glyph, numbered⟩ := inside.numbered_of_mem_items ordered member
  obtain ⟨n, small, value⟩ := numbered.exists_value
  obtain ⟨before, after, parts, size⟩ := numbered.exists_parts q_inside
  have reads := value s.doc before after (by rw [← List.append_assoc]; exact parts)
  rw [size] at reads
  refine ⟨q_inside, digits, glyph, n, numbered, small, reads, fun d front rest text => ?_⟩
  rw [Document.numberAt?, value d front rest text]
  rfl

include splits counted

theorem bumped_iff (member : q ∈ list.items) (numbered : q.IsNumbered digits glyph) {n : Nat}
    (read : ItemNumber.ofItem? s.doc q.start = some ⟨0, digits.size, n⟩) :
    ⟨q.start, q.start + digits.size, Text.ofNat (n + 1)⟩ ∈ tr.changes.changes ↔
      Bumped s list q := by
  have some_digit := numbered.size_pos
  have q_inside := (inside.numbered_of_mem_items ordered member).1
  constructor
  · intro change
    rcases splits.mark_cases numbered q_inside read change with
      before | behind | ⟨_, x, p, other, here, item, following, in_other⟩
    · dsimp only at before
      omega
    · dsimp only at behind
      omega
    · have parent := (Place.isNode_of_mem_items member).2
      rw [(Place.isNode_of_mem_items in_other).2] at parent
      cases parent
      have order := (Place.mem_followingItems_iff inside ordered item member).mp following
      exact ⟨p, item, order, x, here⟩
  · rintro ⟨p, item, order, x, here⟩
    obtain ⟨p_inside, digits', glyph', m, numbered', _, start, _⟩ :=
      item_facts inside ordered item
    have following := (Place.mem_followingItems_iff inside ordered item member).mpr order
    obtain ⟨front, items⟩ := Place.items_split item
    have later : Counted s.doc (p :: p.followingItems) := by
      rw [items] at counted
      exact counted.of_append
    have change := mem_renumber_of_counted start later following read
    obtain ⟨frame, _⟩ := At.frame_of_item splits.coherent here numbered'
    have is_ordered : x.inner.isOrdered = true := by
      obtain ⟨f, k, found, _, shown, _⟩ :=
        @Place.IsNumbered.exists_frame s.text s.doc.lineBreak p _ _ numbered' p_inside
      rw [← splits.coherent.doc, frame] at found
      cases found
      exact shown
    obtain ⟨r, range, found⟩ := here.caret
    have other : (q.start == q.start + digits.size) = false := beq_false_of_ne (by omega)
    refine splits.mem_changes.mpr ⟨?_, r, range, x, found, ?_⟩
    · rw [Change.isNoop, other, Bool.false_and]
    · exact Or.inr ⟨p, here.inner, is_ordered, change⟩

variable (next : tr.changes.applyTo? s.text = some s'.text)

include next

theorem number_of_unbumped (member : q ∈ list.items) (numbered : q.IsNumbered digits glyph)
    {n : Nat} (read : ItemNumber.ofItem? s.doc q.start = some ⟨0, digits.size, n⟩)
    (value : ∀ (d : Document) (before rest : Text), d.text = before ++ (digits ++ [glyph] ++ rest) →
      d.numberAt? before.size = some n) (stays : ¬Bumped s list q) :
    s'.doc.numberAt? (tr.changes.mapPos q.start .after) = some n := by
  have q_inside := (inside.numbered_of_mem_items ordered member).1
  obtain ⟨⟨changes, accepted⟩, _⟩ := splits.applied_changes
  obtain ⟨before, after, parts, size⟩ := numbered.exists_parts q_inside
  have missed : ∀ c ∈ tr.changes.changes, c.stop ≤ before.size ∨
      before.size + (digits ++ [glyph]).size ≤ c.start := by
    intro c change
    rw [size, numbered.size_mark]
    rcases splits.mark_cases numbered q_inside read change with ahead | behind | ⟨rfl, _⟩
    · exact Or.inl ahead
    · exact Or.inr behind
    · exact absurd ((bumped_iff splits inside ordered counted member numbered read).mp change) stays
  obtain ⟨front, rest, text, place⟩ := ChangeSet.kept_at accepted next parts missed
  rw [← size, ← place]
  exact value s'.doc front rest text

theorem number_of_bumped (member : q ∈ list.items) (numbered : q.IsNumbered digits glyph) {n : Nat}
    (read : ItemNumber.ofItem? s.doc q.start = some ⟨0, digits.size, n⟩)
    (bumped : Bumped s list q) :
    s'.doc.numberAt? (tr.changes.mapPos q.start .after) =
      if n + 1 < ItemNumber.limit then some (n + 1) else none := by
  have q_inside := (inside.numbered_of_mem_items ordered member).1
  have some_digit := numbered.size_pos
  have change := (bumped_iff splits inside ordered counted member numbered read).mpr bumped
  obtain ⟨⟨changes, accepted⟩, _⟩ := splits.applied_changes
  obtain ⟨before, after, parts, size⟩ := numbered.exists_parts q_inside
  have mark : (digits ++ [glyph]).size = digits.size + Text.size [glyph] := Text.size_append _ _
  rw [numbered.size_mark] at mark
  have parts' : s.text = (before ++ digits) ++ [glyph] ++ after := by
    rw [parts]
    simp only [List.append_assoc]
  have size' : (before ++ digits).size = q.start + digits.size := by rw [Text.size_append, size]
  have missed : ∀ d ∈ tr.changes.changes, d.stop ≤ q.start ∨
      d = ⟨q.start, q.start + digits.size, Text.ofNat (n + 1)⟩ ∨
      (before ++ digits).size + Text.size [glyph] ≤ d.start := by
    intro d other
    rcases splits.mark_cases numbered q_inside read other with ahead | behind | ⟨same, _⟩
    · exact Or.inl ahead
    · exact Or.inr (Or.inr (by omega))
    · exact Or.inr (Or.inl same)
  have boundary : s.text.isBoundary q.start = true := by
    rw [parts, ← size, List.append_assoc]
    exact Text.isBoundary_left _ _
  obtain ⟨front, rest, text, place⟩ := ChangeSet.replaced_at accepted next change
    (show q.start < q.start + digits.size by omega) parts' size' missed boundary
  rw [← place]
  exact Document.numberAt?_ofNat text numbered.delimiter

end Numbers

section New

variable (splits : SplitsLines s tr) (inside : list.In (Tree.ofText s.text))
  (ordered : list.kind = .orderedList)

include splits inside ordered

theorem new_item (member : p ∈ list.items) (here : x.At s p) (fresh : x.isContinued = false)
    {n : Nat} (numbered : p.IsNumbered digits glyph)
    (read : ItemNumber.ofItem? s.doc p.start = some ⟨0, digits.size, n⟩) :
    x.lineSplit s ∈ tr.changes.changes ∧ 0 < (x.inner.marker s.doc 1).size ∧
      (x.inner.marker s.doc 1).size < (x.lineSplit s).insert.size := by
  have p_inside := (inside.numbered_of_mem_items ordered member).1
  obtain ⟨front, k, insert, some_front, marker⟩ :=
    lineSplit_ends splits.coherent here numbered p_inside fresh read
  have front_size := Text.size_pos some_front
  have marker_size : 0 < (x.inner.marker s.doc 1).size := Text.size_pos (by simp [marker])
  obtain ⟨r, range, found⟩ := here.caret
  refine ⟨splits.mem_changes.mpr ⟨?_, r, range, x, found, Or.inl rfl⟩, marker_size, ?_⟩
  · have some_text : (x.lineSplit s).insert.isEmpty = false := by
      rw [insert]
      simp [some_front]
    rw [Change.isNoop, some_text, Bool.and_false]
  · rw [insert, Text.size_append]
    omega

theorem number_of_new (member : p ∈ list.items) (here : x.At s p) (fresh : x.isContinued = false)
    {n : Nat} (numbered : p.IsNumbered digits glyph)
    (read : ItemNumber.ofItem? s.doc p.start = some ⟨0, digits.size, n⟩)
    (next : tr.changes.applyTo? s.text = some s'.text) :
    s'.doc.numberAt? (tr.changes.mapPos x.pos .after - (x.inner.marker s.doc 1).size) =
      if n + 1 < ItemNumber.limit then some (n + 1) else none := by
  have p_inside := (inside.numbered_of_mem_items ordered member).1
  obtain ⟨front, k, insert, _, marker⟩ :=
    lineSplit_ends splits.coherent here numbered p_inside fresh read
  obtain ⟨change, _⟩ := new_item splits inside ordered member here fresh numbered read
  obtain ⟨_, _, found⟩ := here.caret
  obtain ⟨⟨changes, accepted⟩, apart⟩ := splits.applied_changes
  have alone : ∀ d ∈ tr.changes.changes, d.start = (x.lineSplit s).stop →
      d.stop = (x.lineSplit s).stop → d = x.lineSplit s := by
    intro d other begins ends
    obtain ⟨r', range', y, found', rfl⟩ := splits.insertion_site other (begins.trans ends.symm)
    have same : y.pos = x.pos := ends
    rw [site_unique found' found same]
  obtain ⟨above, rest, text, place⟩ := ChangeSet.inserted_at accepted next apart change alone
  have stop : (x.lineSplit s).stop = x.pos := rfl
  rw [stop, insert, Text.size_append] at place
  have start : tr.changes.mapPos x.pos .after - (x.inner.marker s.doc 1).size =
      (above ++ front).size := by
    rw [place, Text.size_append]
    omega
  have text' : s'.doc.text =
      (above ++ front) ++ (Text.ofNat (n + 1) ++ [glyph] ++ (Text.spaces k ++ rest)) := by
    change s'.text = _
    rw [text, insert, marker]
    simp only [List.append_assoc]
  rw [start]
  exact Document.numberAt?_ofNat text' numbered.delimiter

end New

end Enter

end MarkdownEditing

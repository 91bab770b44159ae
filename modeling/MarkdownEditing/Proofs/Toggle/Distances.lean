import MarkdownEditing.Proofs.Toggle.Regrouped

namespace MarkdownEditing

namespace ListKind

open Text

variable {kind : ListKind} {t u : Text} {index : Nat}

def content (kind : ListKind) (t : Text) : Text := (kind.afterMarker? t 0).getD (removeMarker t)

theorem size_afterMarker? (found : kind.afterMarker? t index = some u) : u.size < t.size := by
  cases kind with
  | bullet =>
    obtain ⟨i, c, n, -, rfl, -⟩ := afterBullet?_lead found
    simp only [size_append, size_cons, size_spaces]
    omega
  | numbering =>
    obtain ⟨i, rfl⟩ := afterNumber?_parts found
    have dot : size ['.', ' '] = 2 := rfl
    simp only [size_append, dot]
    omega
  | todo =>
    obtain ⟨i, j, b, k, rfl, -⟩ := afterTodo?_parts found
    simp only [size_append, size_spaces]
    omega

theorem size_nextState? (next : kind.nextState? t = some u) : u.size = t.size := by
  cases kind with
  | bullet => cases next
  | numbering => cases next
  | todo =>
    obtain ⟨a, j, b, rfl, rfl⟩ := check?_parts next
    have boxes : (taskBox 0 j 'x').size = (taskBox 0 j ' ').size := by
      simp only [taskBox, size_append, size_cons, size_spaces]
      rfl
    simp only [size_append, boxes]

theorem restyle_single (kind : ListKind) (l : Line) : ∃ u, kind.restyle [l] = [u] ∧
    (kind.content l.text).size ≤ u.size ∧
      (l.text.size ≤ (kind.content l.text).size → l.text.size < u.size) := by
  have only : placed [l] = [(l, 0)] := rfl
  refine ⟨_, by rw [restyle, only]; rfl, ?_⟩
  simp only [content, restyleLine, allMarked, List.all_cons, List.all_nil, Bool.and_true,
    List.length_singleton, Nat.lt_irrefl, decide_false, Bool.false_and, Bool.or_false]
  cases found : kind.afterMarker? l.text 0 with
  | none =>
    simp only [Option.getD_none, Bool.false_eq_true, if_false, size_append, size_cons]
    have space := Char.utf8Size_pos ' '
    omega
  | some content =>
    have shorter := size_afterMarker? found
    simp only [Option.getD_some, Option.isSome_some, if_true]
    cases next : kind.nextState? l.text with
    | none =>
      rw [Option.getD_none]
      omega
    | some u =>
      have same := size_nextState? next
      rw [Option.getD_some]
      omega

end ListKind

namespace Range

variable {start stop start' stop' : Nat} {p p' q r : Range}

theorem Lands.yields_or_apart (order : start' ≤ stop') (low : start ≤ r.start)
    (lands : Lands start stop start' stop' p p') (far : q.AsFar stop' r stop)
    (fits : stop + start' ≤ r.start + stop') (high : r.stop ≤ stop + 1)
    (free : p.Overhangs stop → ¬(p.start = start ∧ r.start = start))
    (apart : p.Apart r ∨ r.Apart p) : p'.Yields q ∨ q.Apart p' := by
  have forward := p.start_le_stop
  have forward' := r.start_le_stop
  have forward'' := p'.start_le_stop
  rw [Yields, apart_iff, apart_iff, Contains]
  rw [apart_iff, apart_iff] at apart
  rw [AsFar] at far
  rw [Overhangs] at free
  cases lands with
  | slides inside fits' far' =>
    rw [AsFar] at far'
    omega
  | collapses inside long flat first last => omega
  | behind past far' =>
    rw [AsFar] at far'
    omega
  | overhangs crosses last first =>
    rw [Overhangs] at crosses
    split at first <;> omega

/-- The ranges `held` on a line from `start` to `stop` become some of the given ones, and all others
lie apart from these. -/
structure OnLine (start stop start' stop' : Nat) (held ranges : List Range)
    (image : Range → Range) : Prop where
  order : start' ≤ stop'
  apart : held.Pairwise Apart
  bounds : ∀ r ∈ held, start ≤ r.start ∧ r.stop ≤ stop + 1
  lands : ∀ r ∈ held, Lands start stop start' stop' r (image r)
  members : ∀ r ∈ held, image r ∈ ranges
  others : ∀ q ∈ ranges, (∃ r ∈ held, q = image r) ∨
    ∀ r ∈ held, q.stop < (image r).start ∨ (image r).stop < q.start

namespace OnLine

variable {held ranges : List Range} {image : Range → Range} (main : Nat)
  (line : OnLine start stop start' stop' held ranges image) (member : r ∈ held)

include line member

theorem exists_asFar (fits : stop + start' ≤ r.start + stop') (upright : ¬r.Overhangs stop)
    (free : ∀ p ∈ held, p.Overhangs stop → ¬(p.start = start ∧ r.start = start)) :
    ∃ q ∈ (Selection.ofRanges ranges main).ranges, q.AsFar stop' r stop := by
  have bounds := line.bounds r member
  have far : (image r).AsFar stop' r stop := by
    cases line.lands r member with
    | slides inside fits' far => exact far
    | collapses inside long flat first last => omega
    | behind past far => exact far
    | overhangs crosses last first => exact absurd crosses upright
  obtain ⟨q, kept, same⟩ := Selection.sameSpan_ofRanges main (line.members r member) (by
    intro p' given
    rcases line.others p' given with ⟨p, member', rfl⟩ | beyond
    · by_cases other : p = r
      · rw [other]
        exact Or.inl (Or.inr (.refl _))
      · exact (line.lands p member').yields_or_apart line.order bounds.1 far fits bounds.2
          (free p member')
          (apart_or line.apart member' member other)
    · rw [Range.Yields, Range.apart_iff, Range.apart_iff]
      have strict := beyond r member
      omega)
  refine ⟨q, kept, ?_⟩
  rw [AsFar, same.1, same.2]
  exact far

theorem image_of_overhangs (crosses : r.Overhangs stop) : (image r).stop = stop' + 1 ∧
    (image r).start = if r.start = start then start' else stop' := by
  have bounds := line.bounds r member
  rw [Overhangs] at crosses
  cases line.lands r member with
  | slides inside fits far => omega
  | collapses inside long flat first last => omega
  | behind past far => omega
  | overhangs crosses last first => exact ⟨last, first⟩

/-- Where a range that overhangs begins inside the line, no range goes on over its end. -/
theorem split_of_overhangs (crosses : r.Overhangs stop) (inner : r.start ≠ start)
    (kept : q ∈ (Selection.ofRanges ranges main).ranges) : q.stop ≤ stop' ∨ stop' ≤ q.start := by
  have given := List.ne_nil_of_mem (line.members r member)
  have ends := line.image_of_overhangs member crosses
  rw [if_neg inner] at ends
  rw [Overhangs] at crosses
  refine Selection.forall_ofRanges main (P := fun x => x.stop ≤ stop' ∨ stop' ≤ x.start)
    (fun a b order joined first second => ?_) given (fun x given => ?_) q kept
  · rw [joins_iff] at joined
    rw [stop_merge, start_merge]
    omega
  · rcases line.others x given with ⟨p, member', rfl⟩ | beyond
    · have forward := (image p).start_le_stop
      cases line.lands p member' with
      | slides inside fits far =>
        rw [AsFar] at far
        omega
      | collapses inside long flat first last => omega
      | behind past far =>
        rw [AsFar] at far
        omega
      | overhangs crosses' last first =>
        by_cases same : p = r
        · rw [same, ends.2]
          exact Or.inr (Nat.le_refl _)
        · have free := apart_or line.apart member' member same
          rw [apart_iff, apart_iff] at free
          rw [Overhangs] at crosses'
          omega
    · have strict := beyond r member
      omega

theorem not_asFar (grows : r.start = start → stop + start' < start + stop') (held_p : p ∈ held)
    (crosses : p.Overhangs stop) (meets : p = r ∨ p.start = start ∧ r.start = start) :
    ¬∃ q ∈ (Selection.ofRanges ranges main).ranges, q.AsFar stop' r stop := by
  rintro ⟨q, kept, far⟩
  have given := List.ne_nil_of_mem (line.members r member)
  have forward := q.start_le_stop
  have forward' := r.start_le_stop
  have bounds := line.bounds p held_p
  have ends := line.image_of_overhangs held_p crosses
  rw [AsFar] at far
  by_cases opening : p.start = start ∧ r.start = start
  · -- the range that overhangs goes over the whole line, and over any range inside it
    rw [if_pos opening.1] at ends
    have longer := grows opening.2
    obtain ⟨whole, kept', contains⟩ := Selection.contains_ofRanges main (line.members p held_p)
    have outside : q ≠ whole := by
      rintro rfl
      have first := contains.1
      omega
    have free := apart_or (Selection.ranges_ofRanges_apart given main) kept kept' outside
    rw [apart_iff, apart_iff] at free
    rw [Contains] at contains
    rw [Overhangs] at crosses
    omega
  · obtain rfl := meets.resolve_right opening
    have inner : p.start ≠ start := fun here => opening ⟨here, here⟩
    have split := line.split_of_overhangs main held_p crosses inner kept
    rw [Overhangs] at crosses
    omega

end OnLine

end Range

namespace LineGroup

open Row

variable {s s' : EditState} {kind : ListKind} {set : ChangeSet} {g : LineGroup}
  {groups : List LineGroup} {lists : List (List Range)} {ranges : List Range} {p q r : Range}

theorem exists_own (coherent : s.Coherent) (coherent' : s'.Coherent)
    (regrouped : List.Forall₂ (Regrouped s s' kind set) groups lists)
    (apart : groups.Pairwise fun g h => g.last < h.first) (tight : ∀ g ∈ groups, g.Tight s)
    (inside : ∀ g ∈ groups, ∀ r ∈ g.ranges, r.Inside s.doc.size) (group : g ∈ groups) :
    ∃ own, Regrouped s s' kind set g own ∧ (∀ q ∈ own, q ∈ lists.flatten) ∧
      ∀ q ∈ lists.flatten,
        q ∈ own ∨ (s'.lineSpan q).2 < g.first ∨ g.last < (s'.lineSpan q).1 := by
  induction regrouped with
  | nil => cases group
  | @cons h ranges groups lists here later ih =>
    rw [List.forall_mem_cons] at tight inside
    rw [List.flatten_cons]
    rcases List.mem_cons.mp group with rfl | group
    · refine ⟨ranges, here, fun q member => List.mem_append_left _ member, fun q member => ?_⟩
      refine (List.mem_append.mp member).imp_right fun member => Or.inr ?_
      have spans := (lineSpans_flatten coherent coherent' later tight.2 inside.2).2
      obtain ⟨h, below, span⟩ := List.mem_map.mp (lineSpan_mem spans member)
      rw [← span]
      exact List.rel_of_pairwise_cons apart below
    · obtain ⟨own, regrouped, members, others⟩ := ih apart.of_cons tight.2 inside.2 group
      refine ⟨own, regrouped, fun q member => List.mem_append_right _ (members q member),
        fun q member => ?_⟩
      rcases List.mem_append.mp member with member | member
      · rw [(here.lineSpan coherent coherent' tight.1 inside.1 q member).2]
        exact Or.inr (Or.inl (List.rel_of_pairwise_cons apart group))
      · exact others q member

theorem lt_of_lines (coherent : s.Coherent) (inside : p.Inside s.doc.size)
    (above : (s.lineSpan p).2 < (s.lineSpan q).1) : p.stop < q.start := by
  by_contra order
  have below := coherent.number_lineAt_mono (Nat.le_of_not_lt order) inside.stop_le
  simp only [EditState.lineSpan] at above
  omega

section Own

variable {shift : Int} {above own below above' below' : List Row} {behind : List Change}
  (coherent : s.Coherent) (coherent' : s'.Coherent)
  (replaced : Replaced s s' kind set shift above own below above' below' behind)
  (first : g.first = above.length + 1) (last : g.last + 1 = g.first + own.length)
  (within : ∀ q ∈ g.newRanges s kind set shift, q.Inside s'.doc.size ∧ s'.lineSpan q = g.span)
  (given : ∀ q ∈ g.newRanges s kind set shift, q ∈ ranges)
  (inside : ∀ q ∈ ranges, q.Inside s'.doc.size)
  (others : ∀ q ∈ ranges, q ∈ g.newRanges s kind set shift ∨
    (s'.lineSpan q).2 < g.first ∨ g.last < (s'.lineSpan q).1)

include coherent' within inside others

theorem strictly_apart (member : p ∈ g.newRanges s kind set shift) (other : q ∈ ranges)
    (outside : q ∉ g.newRanges s kind set shift) : q.stop < p.start ∨ p.stop < q.start := by
  obtain ⟨inside_p, span⟩ := within p member
  rcases (others q other).resolve_left outside with above | below
  · exact Or.inl (lt_of_lines coherent' (inside q other) (by rwa [span]))
  · exact Or.inr (lt_of_lines coherent' inside_p (by rwa [span]))

include coherent replaced first last given

theorem exists_whole (main : Nat) (several : g.first < g.last) :
    ∃ q ∈ (Selection.ofRanges ranges main).ranges,
      q.start = (s'.doc.line g.first).start ∧ q.stop = (s'.doc.line g.last).stop ∧
        s'.doc.slice q.start q.stop = (g.change s kind).insert := by
  obtain ⟨q, whole⟩ : ∃ q : Range, q = ⟨(flat above').size,
    (flat above').size + (body (kind.styled s.lineBreak own)).size⟩ := ⟨_, rfl⟩
  have single : g.newRanges s kind set shift = [q] := by
    rw [whole]
    exact replaced.newRanges_several coherent first last several
  have member : q ∈ g.newRanges s kind set shift := single ▸ List.mem_singleton_self q
  obtain ⟨q', kept, same⟩ := Selection.sameSpan_ofRanges main (given q member) (by
    intro p other
    by_cases own : p ∈ g.newRanges s kind set shift
    · rw [single] at own
      rw [List.mem_singleton.mp own]
      exact Or.inl (Or.inr (.refl q))
    · have strict := strictly_apart coherent' within inside others member other own
      rw [Range.Yields, Range.apart_iff, Range.apart_iff]
      omega)
  have start : q'.start = (flat above').size :=
    same.1.trans (by rw [whole, Range.start_of_le (Nat.le_add_right _ _)])
  have stop : q'.stop = (flat above').size + (body (kind.styled s.lineBreak own)).size :=
    same.2.trans (by rw [whole, Range.stop_of_le (Nat.le_add_right _ _)])
  obtain ⟨line_start, line_stop⟩ := replaced.lines_ends coherent' first last
  have insert : (g.change s kind).insert = body (kind.styled s.lineBreak own) :=
    congrArg Change.insert (change_eq coherent replaced.rows first last replaced.some_row)
  have text : s'.doc.text = flat above' ++ body (kind.styled s.lineBreak own) ++
      (lastEnding (kind.styled s.lineBreak own) ++ flat below') := by
    have parts := replaced.holds'.text
    rw [flat_append, flat_append, flat_eq_body (kind.styled s.lineBreak own)] at parts
    rw [← EditState.text, parts]
    simp only [List.append_assoc]
  refine ⟨q', kept, start.trans line_start.symm, stop.trans line_stop.symm, ?_⟩
  rw [Document.slice, start, stop, text, insert, Text.slice_middle]

theorem exists_onLine {row row' : Row} (row_of : own = [row])
    (single : kind.styled s.lineBreak [row] = [row']) (one : g.first = g.last)
    (held : ∀ r ∈ g.ranges, r.Inside s.doc.size ∧ g.first ≤ (s.lineSpan r).1 ∧
      (s.lineSpan r).2 ≤ g.last) (apart : g.ranges.Pairwise Range.Apart) :
    ∃ image, Range.OnLine (flat above).size ((flat above).size + row.text.size) (flat above').size
      ((flat above').size + row'.text.size) g.ranges ranges image := by
  subst row_of
  obtain ⟨image, images, each⟩ := replaced.lands_newRanges coherent single first one held
  refine ⟨image, {
    order := Nat.le_add_right _ _
    apart := apart
    bounds := fun r member =>
      ⟨(each r member).1.1, replaced.le_of_onRow (each r member).2.1 (held r member).1.stop_le⟩
    lands := fun r member => (each r member).2.2
    members := fun r member => given _ (images ▸ List.mem_map_of_mem member)
    others := fun q other => ?_ }⟩
  by_cases own : q ∈ g.newRanges s kind set shift
  · rw [images] at own
    obtain ⟨r, member, same⟩ := List.mem_map.mp own
    exact Or.inl ⟨r, member, same.symm⟩
  · exact Or.inr fun r member => strictly_apart coherent' within inside others
      (images ▸ List.mem_map_of_mem member) other own

/-- A range behind the marker of a single line keeps its distances to the end of the line exactly if
it does not overhang, and does not stand at the start of the line with one that does. -/
theorem exists_asFar_iff (main : Nat) (one : g.first = g.last)
    (held : ∀ r ∈ g.ranges, r.Inside s.doc.size ∧ g.first ≤ (s.lineSpan r).1 ∧
      (s.lineSpan r).2 ≤ g.last) (apart : g.ranges.Pairwise Range.Apart) (member : r ∈ g.ranges)
    (behind_marker : (s.doc.line g.first).stop ≤
      r.start + (kind.content (s.doc.line g.first).text).size) :
    (∃ q ∈ (Selection.ofRanges ranges main).ranges,
      q.AsFar (s'.doc.line g.first).stop r (s.doc.line g.first).stop) ↔
    ¬∃ p ∈ g.ranges, p.Overhangs (s.doc.line g.first).stop ∧ (p = r ∨
      p.start = (s.doc.line g.first).start ∧ r.start = (s.doc.line g.first).start) := by
  obtain ⟨row, rfl⟩ : ∃ row, own = [row] := List.length_eq_one_iff.mp (by omega)
  obtain ⟨row', holds, ending, single⟩ := replaced.exists_row'
  obtain ⟨image, line⟩ := exists_onLine coherent coherent' replaced first last within given inside
    others rfl single one held apart
  have parts : s.rows = above ++ row :: below := by
    rw [replaced.rows, List.append_assoc, List.singleton_append]
  have old : s.doc.line g.first = Document.lineBelow above row := by
    rw [coherent.doc, first]
    exact Document.line_of_rows parts
  have new : (s'.doc.line g.first).stop = (flat above').size + row'.text.size := by
    have ends := (replaced.lines_ends coherent' first last).2
    rwa [← one, single, body_singleton] at ends
  obtain ⟨u, restyled, fits, grows⟩ := kind.restyle_single ⟨1, 0, 0 + row.text.size, row.text⟩
  obtain rfl : row'.text = u := by
    have lines : Row.lines 1 0 [row] = [⟨1, 0, 0 + row.text.size, row.text⟩] := rfl
    rw [ListKind.styled, lines, restyled] at single
    exact (congrArg Row.text (List.singleton_inj.mp single)).symm
  rw [old, new, Document.lineBelow]
  rw [old, Document.lineBelow] at behind_marker
  dsimp only at behind_marker fits grows ⊢
  constructor
  · rintro kept ⟨p, held_p, crosses, meets⟩
    exact line.not_asFar main member (by omega) held_p crosses meets kept
  · intro free
    refine line.exists_asFar main member (by omega) ?_ ?_
    · exact fun crosses => free ⟨r, member, crosses, Or.inl rfl⟩
    · exact fun p held_p crosses meets => free ⟨p, held_p, crosses, Or.inr meets⟩

end Own

end LineGroup

namespace ListKind

open LineGroup

/-- Toggling a list style selects several lines as a whole, and keeps the distances of a range behind
the marker of a single line to the end of the line, but for ranges that overhang and those at the
start of the line with one that does. -/
theorem toggle_keeps_distances {s : EditState} (reached : s.Reachable) (kind : ListKind) :
    ∃ s', s.next? (kind.toggle s) = some s' ∧ ∀ g ∈ LineGroup.ofState s,
      (g.first < g.last → ∃ q ∈ s'.selection.ranges,
        q.start = (s'.doc.line g.first).start ∧ q.stop = (s'.doc.line g.last).stop ∧
          s'.doc.slice q.start q.stop = (g.change s kind).insert) ∧
      (g.first = g.last → ∀ r ∈ g.ranges,
        (s.doc.line g.first).stop ≤ r.start + (kind.content (s.doc.line g.first).text).size →
          ((∃ q ∈ s'.selection.ranges,
            q.AsFar (s'.doc.line g.first).stop r (s.doc.line g.first).stop) ↔
          ¬∃ p ∈ g.ranges, p.Overhangs (s.doc.line g.first).stop ∧ (p = r ∨
            p.start = (s.doc.line g.first).start ∧ r.start = (s.doc.line g.first).start))) := by
  obtain ⟨s', set, lists, next, regrouped, spread, -, -, -, selection⟩ :=
    exists_regrouped reached kind
  have coherent' := (reached.next next).coherent
  have grouped := grouped_ofState reached.coherent reached.pairwise_apart
  have inside : ∀ g ∈ LineGroup.ofState s, ∀ r ∈ g.ranges, r.Inside s.doc.size :=
    fun g group r held => reached.coherent.inside r (grouped.mem_ranges group held)
  refine ⟨s', next, fun g group => ?_⟩
  obtain ⟨own, of_group, given, others⟩ := exists_own reached.coherent coherent' regrouped
    grouped.apart grouped.tight inside group
  have tight := grouped.tight g group
  have within := of_group.lineSpan reached.coherent coherent' tight (inside g group)
  obtain ⟨shift, above, own, below, above', below', behind, replaced, first, last, rfl⟩ := of_group
  rw [selection]
  refine ⟨exists_whole reached.coherent coherent' replaced first last within given spread.inside
    others s.selection.main, fun one r held => exists_asFar_iff reached.coherent coherent' replaced
    first last within given spread.inside others s.selection.main one
    (fun r held => ⟨inside g group r held, tight.inside r held⟩) ?_ held⟩
  have sublist : g.ranges.Sublist s.selection.ranges := by
    rw [← grouped.ranges]
    exact List.sublist_flatten_of_mem (List.mem_map_of_mem group)
  exact reached.pairwise_apart.sublist sublist

def itemAndLines : EditState :=
  .ofText ['-', ' ', 'a', 'b', '\n', 'c', '\n', 'd'] ⟨[⟨3, 4⟩, ⟨5, 8⟩], 0⟩ {}

theorem itemAndLines_keeps_distances : ∃ s',
    itemAndLines.next? (ListKind.bullet.toggle itemAndLines) = some s' ∧
    (∃ q ∈ s'.selection.ranges, q.AsFar (s'.doc.line 1).stop ⟨3, 4⟩ 4) ∧
    ∃ q ∈ s'.selection.ranges, s'.doc.slice q.start q.stop = ['-', ' ', 'c', '\n', '-', ' ', 'd'] := by
  have groups : LineGroup.ofState itemAndLines = [⟨1, 1, [⟨3, 4⟩]⟩, ⟨2, 3, [⟨5, 8⟩]⟩] := by cbv
  have line : (itemAndLines.doc.line 1).stop = 4 ∧
      (ListKind.bullet.content (itemAndLines.doc.line 1).text).size = 2 := by decide +kernel
  have insert : (LineGroup.change ⟨2, 3, [⟨5, 8⟩]⟩ itemAndLines .bullet).insert =
      ['-', ' ', 'c', '\n', '-', ' ', 'd'] := by decide +kernel
  have reached : itemAndLines.Reachable := .ofText _ _ _
  obtain ⟨s', next, keeps⟩ := toggle_keeps_distances reached .bullet
  rw [groups] at keeps
  refine ⟨s', next, ?_, ?_⟩
  · have single := (keeps ⟨1, 1, [⟨3, 4⟩]⟩ (by simp)).2 rfl ⟨3, 4⟩ (by simp)
    rw [line.1, line.2] at single
    refine (single (by decide)).mpr ?_
    rintro ⟨p, held, crosses, -⟩
    obtain rfl := List.mem_singleton.mp held
    exact absurd crosses.2 (by decide)
  · obtain ⟨q, kept, -, -, text⟩ := (keeps ⟨2, 3, [⟨5, 8⟩]⟩ (by simp)).1 (by decide)
    exact ⟨q, kept, text.trans insert⟩

def halfBreak : EditState := .ofText ['-', ' ', 'a', 'b', '\r', '\n'] ⟨[⟨3, 5⟩], 0⟩ {}

/-- The letter gets out of the range, which goes on from the end of the line. -/
theorem halfBreak_leaves_letter : ∃ s',
    halfBreak.next? (ListKind.bullet.toggle halfBreak) = some s' ∧
    LineGroup.ofState halfBreak = [⟨1, 1, [⟨3, 5⟩]⟩] ∧
    (halfBreak.doc.line 1).stop ≤ 3 + (ListKind.bullet.content (halfBreak.doc.line 1).text).size ∧
    s'.text = ['a', 'b', '\r', '\n'] ∧ s'.selection = ⟨[⟨2, 3⟩], 0⟩ ∧
    ¬∃ q ∈ s'.selection.ranges, q.AsFar (s'.doc.line 1).stop ⟨3, 5⟩ (halfBreak.doc.line 1).stop := by
  have toggled : (halfBreak.next? (ListKind.bullet.toggle halfBreak)).map
      (fun s' => (s'.text, s'.selection, (s'.doc.line 1).stop)) =
        some (['a', 'b', '\r', '\n'], ⟨[⟨2, 3⟩], 0⟩, 2) := by decide +kernel
  obtain ⟨s', next, found⟩ := Option.map_eq_some_iff.mp toggled
  simp only [Prod.mk.injEq] at found
  obtain ⟨text, selection, stop⟩ := found
  refine ⟨s', next, by cbv, by decide +kernel, text, selection, ?_⟩
  rw [selection, stop]
  rintro ⟨q, kept, far⟩
  obtain rfl := List.mem_singleton.mp kept
  have start := far.1
  have old : (halfBreak.doc.line 1).stop = 4 := by decide +kernel
  rw [old] at start
  exact absurd start (by decide)

end ListKind

end MarkdownEditing

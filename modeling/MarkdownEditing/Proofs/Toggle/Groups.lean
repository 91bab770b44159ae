import MarkdownEditing.Proofs.Edit.Canonical
import MarkdownEditing.Proofs.Edit.Rows
import MarkdownEditing.Toggle.ListStyle

namespace MarkdownEditing

namespace LineGroup

variable {s : EditState} {g h group : LineGroup} {r : Range} {rest ranges : List Range}
  {groups : List LineGroup}

def span (g : LineGroup) : Nat × Nat := (g.first, g.last)

/-- A group goes from the first line of one of its ranges to the last line of one, and its other
ranges lie within. -/
structure Tight (s : EditState) (g : LineGroup) : Prop where
  forward : g.first ≤ g.last
  inside : ∀ r ∈ g.ranges, g.first ≤ (s.lineSpan r).1 ∧ (s.lineSpan r).2 ≤ g.last
  first : ∃ r ∈ g.ranges, g.first = (s.lineSpan r).1
  last : ∃ r ∈ g.ranges, g.last = (s.lineSpan r).2

structure Grouped (s : EditState) (ranges : List Range) (groups : List LineGroup) : Prop where
  apart : groups.Pairwise fun g h => g.last < h.first
  ranges : groups.flatMap LineGroup.ranges = ranges
  tight : ∀ g ∈ groups, g.Tight s

theorem Grouped.spans_pairwise (grouped : Grouped s ranges groups) :
    (groups.map span).Pairwise fun p q => p.2 < q.1 := List.pairwise_map.mpr grouped.apart

theorem Grouped.mem_ranges (grouped : Grouped s ranges groups) (member : g ∈ groups)
    (held : r ∈ g.ranges) : r ∈ ranges := by
  rw [← grouped.ranges]
  exact List.mem_flatMap.mpr ⟨g, member, held⟩

/-- The lines of each range come no later than those of the ranges behind it. -/
structure Stacked (s : EditState) (ranges : List Range) : Prop where
  forward : ∀ r ∈ ranges, (s.lineSpan r).1 ≤ (s.lineSpan r).2
  ordered : ranges.Pairwise fun a b => (s.lineSpan a).2 ≤ (s.lineSpan b).1

theorem Stacked.of_cons (stacked : Stacked s (r :: rest)) : Stacked s rest :=
  ⟨fun q member => stacked.forward q (List.mem_cons_of_mem _ member), stacked.ordered.of_cons⟩

theorem Stacked.forall_le (stacked : Stacked s (r :: rest)) :
    ∀ q ∈ rest, (s.lineSpan r).2 ≤ (s.lineSpan q).1 := fun _ member =>
  List.rel_of_pairwise_cons stacked.ordered member

theorem tight_single (forward : (s.lineSpan r).1 ≤ (s.lineSpan r).2) :
    Tight s ⟨(s.lineSpan r).1, (s.lineSpan r).2, [r]⟩ where
  forward := forward
  inside q member := by
    rw [List.mem_singleton.mp member]
    exact ⟨le_rfl, le_rfl⟩
  first := ⟨r, List.mem_singleton_self r, rfl⟩
  last := ⟨r, List.mem_singleton_self r, rfl⟩

/-- A range that begins on the last line of a group carries the group on to its own last line. -/
theorem Tight.join (tight : group.Tight s) (forward : (s.lineSpan r).1 ≤ (s.lineSpan r).2)
    (meets : (s.lineSpan r).1 = group.last) :
    Tight s { group with last := max group.last (s.lineSpan r).2, ranges := group.ranges ++ [r] } := by
  have last : max group.last (s.lineSpan r).2 = (s.lineSpan r).2 := Nat.max_eq_right (meets ▸ forward)
  have start := tight.forward
  rw [last]
  refine ⟨by dsimp only; omega, ?_, ?_, ⟨r, by simp, rfl⟩⟩
  · intro q member
    rcases List.mem_append.mp member with old | new
    · have within := tight.inside q old
      dsimp only
      omega
    · rw [List.mem_singleton.mp new]
      dsimp only
      omega
  · obtain ⟨q, member, first⟩ := tight.first
    exact ⟨q, List.mem_append_left _ member, first⟩

theorem grouped_gather (tight : group.Tight s) (stacked : Stacked s rest)
    (behind : ∀ r ∈ rest, group.last ≤ (s.lineSpan r).1) :
    Grouped s (group.ranges ++ rest) (gather s group rest) ∧
      ∀ g ∈ gather s group rest, group.first ≤ g.first := by
  -- On the ranges left; `group` takes in those that begin on its last line.
  induction rest generalizing group with
  | nil =>
    refine ⟨⟨List.pairwise_singleton _ _, by simp [gather], ?_⟩, ?_⟩ <;> intro g member <;>
      rw [List.mem_singleton.mp member]
    exact tight
  | cons r rest ih =>
    have forward := stacked.forward r List.mem_cons_self
    have later := stacked.of_cons
    have further := stacked.forall_le
    have first := behind r List.mem_cons_self
    simp only [gather]
    split
    · rename_i meets
      have joined := tight.join forward (Nat.le_antisymm meets first)
      obtain ⟨grouped, below⟩ := ih joined later fun q member =>
        Nat.max_le.mpr ⟨behind q (List.mem_cons_of_mem _ member), further q member⟩
      refine ⟨?_, below⟩
      rwa [List.append_assoc, List.singleton_append] at grouped
    · rename_i past
      obtain ⟨grouped, below⟩ := ih (tight_single forward) later further
      have under : ∀ g ∈ gather s ⟨(s.lineSpan r).1, (s.lineSpan r).2, [r]⟩ rest,
          group.last < g.first := fun g member =>
        Nat.lt_of_lt_of_le (Nat.lt_of_not_le past) (below g member)
      have start := tight.forward
      refine ⟨⟨List.pairwise_cons.mpr ⟨under, grouped.apart⟩, ?_, ?_⟩, ?_⟩
      · rw [List.flatMap_cons, grouped.ranges, List.singleton_append]
      · intro g member
        rcases List.mem_cons.mp member with rfl | member
        · exact tight
        · exact grouped.tight g member
      · intro g member
        rcases List.mem_cons.mp member with rfl | member
        · exact le_rfl
        · have order := under g member
          omega

theorem stacked_of_apart (coherent : s.Coherent) (apart : s.selection.ranges.Pairwise Range.Apart) :
    Stacked s s.selection.ranges := by
  refine ⟨fun r member => ?_, apart.imp_of_mem fun {a b} _ second free => ?_⟩
  · have inside := coherent.inside r member
    exact coherent.number_lineAt_mono r.start_le_stop inside.stop_le
  · have inside := coherent.inside b second
    exact coherent.number_lineAt_mono (Range.apart_iff.mp free).1
      (Nat.le_trans b.start_le_stop inside.stop_le)

theorem grouped_ofState (coherent : s.Coherent)
    (apart : s.selection.ranges.Pairwise Range.Apart) :
    Grouped s s.selection.ranges (ofState s) := by
  have stacked := stacked_of_apart coherent apart
  unfold ofState
  cases ranges : s.selection.ranges with
  | nil => exact ⟨List.Pairwise.nil, rfl, fun g member => nomatch member⟩
  | cons r rest =>
    rw [ranges] at stacked
    exact (grouped_gather (tight_single (stacked.forward r List.mem_cons_self)) stacked.of_cons
      stacked.forall_le).1

theorem bounds_of_mem_ofState (coherent : s.Coherent)
    (apart : s.selection.ranges.Pairwise Range.Apart) (member : g ∈ ofState s) :
    1 ≤ g.first ∧ g.first ≤ g.last ∧ g.last ≤ s.rows.length := by
  have grouped := grouped_ofState coherent apart
  have tight := grouped.tight g member
  have inside : ∀ r ∈ g.ranges, r.Inside s.doc.size := fun r held =>
    coherent.inside r (grouped.mem_ranges member held)
  obtain ⟨r, held, first⟩ := tight.first
  obtain ⟨q, held', last⟩ := tight.last
  have above := (coherent.number_lineAt (Nat.le_trans r.start_le_stop (inside r held).stop_le)).1
  have below := (coherent.number_lineAt (inside q held').stop_le).2
  exact ⟨first ▸ above, tight.forward, last ▸ below⟩

end LineGroup

structure RowGroup where
  above : List Row
  own : List Row

namespace RowGroup

variable {spans : List (Nat × Nat)} {parts : List RowGroup} {rest rows : List Row} {number : Nat}

/-- The rows of all groups and of what stands between them, down to the rows at the end. -/
def joined : List RowGroup → List Row → List Row
  | [], rest => rest
  | part :: parts, rest => part.above ++ part.own ++ joined parts rest

def mapOwn (change : List Row → List Row) (parts : List RowGroup) : List RowGroup :=
  parts.map fun part => { part with own := change part.own }

theorem joined_mapOwn_cons (change : List Row → List Row) (part : RowGroup)
    (parts : List RowGroup) (rest : List Row) : joined (mapOwn change (part :: parts)) rest =
      part.above ++ change part.own ++ joined (mapOwn change parts) rest := rfl

/-- The groups have the lines of the given spans, when the first row has the number `number`. -/
inductive Cut : Nat → List (Nat × Nat) → List RowGroup → Prop
  | nil (number : Nat) : Cut number [] []
  | cons {number : Nat} {span : Nat × Nat} {spans : List (Nat × Nat)} {part : RowGroup}
      {parts : List RowGroup} (some_row : part.own ≠ [])
      (first : span.1 = number + part.above.length) (last : span.2 + 1 = span.1 + part.own.length)
      (later : Cut (span.2 + 1) spans parts) : Cut number (span :: spans) (part :: parts)

theorem exists_cut (apart : spans.Pairwise fun p q => p.2 < q.1)
    (inside : ∀ p ∈ spans, number ≤ p.1 ∧ p.1 ≤ p.2 ∧ p.2 < number + rows.length) :
    ∃ parts rest, rows = joined parts rest ∧ Cut number spans parts := by
  -- On the spans, with the rows above the first one split off and the rest cut below it.
  induction spans generalizing number rows with
  | nil => exact ⟨[], rows, rfl, .nil number⟩
  | cons span spans ih =>
    obtain ⟨low, forward, high⟩ := inside span List.mem_cons_self
    obtain ⟨below, rest, parts, cut⟩ : ∃ below rest,
        rows.drop (span.2 + 1 - number) = joined below rest ∧ Cut (span.2 + 1) spans below := by
      refine ih apart.of_cons fun p member => ?_
      have order := List.rel_of_pairwise_cons apart member
      have bounds := inside p (List.mem_cons_of_mem _ member)
      rw [List.length_drop]
      omega
    refine ⟨⟨rows.take (span.1 - number), (rows.drop (span.1 - number)).take
      (span.2 + 1 - span.1)⟩ :: below, rest, ?_, .cons ?_ ?_ ?_ cut⟩
    · have skip : span.2 + 1 - number = span.1 - number + (span.2 + 1 - span.1) := by omega
      rw [joined, ← parts, skip, ← List.drop_drop, List.append_assoc, List.take_append_drop,
        List.take_append_drop]
    · apply List.ne_nil_of_length_pos
      rw [List.length_take, List.length_drop]
      omega
    · rw [List.length_take]
      omega
    · rw [List.length_take, List.length_drop]
      omega

theorem Cut.own_ne_nil (cut : Cut number spans parts) : ∀ part ∈ parts, part.own ≠ [] := by
  induction cut with
  | nil => exact fun part member => nomatch member
  | cons some_row _ _ _ ih =>
    intro part member
    rcases List.mem_cons.mp member with rfl | member
    · exact some_row
    · exact ih part member

section MapOwn

variable {change : List Row → List Row} (length : ∀ rows, (change rows).length = rows.length)

include length

@[simp] theorem length_joined_mapOwn (parts : List RowGroup) (rest : List Row) :
    (joined (mapOwn change parts) rest).length = (joined parts rest).length := by
  induction parts with
  | nil => rfl
  | cons part parts ih =>
    rw [joined_mapOwn_cons, joined, List.length_append, List.length_append,
      List.length_append, List.length_append, ih, length]

theorem cut_mapOwn (cut : Cut number spans parts) : Cut number spans (mapOwn change parts) := by
  induction cut with
  | nil number => exact .nil number
  | @cons _ _ _ part _ some_row first last _ ih =>
    refine .cons ?_ first ((length part.own).symm ▸ last) ih
    apply List.ne_nil_of_length_pos
    rw [length]
    exact List.length_pos_of_ne_nil some_row

theorem Cut.getElem?_outside (cut : Cut number spans parts) {n : Nat}
    (outside : ∀ p ∈ spans, ¬(p.1 ≤ number + n ∧ number + n ≤ p.2)) :
    (joined (mapOwn change parts) rest)[n]? = (joined parts rest)[n]? := by
  induction cut generalizing n with
  | nil => rfl
  | @cons number span spans part parts some_row first last cut ih =>
    have missed := outside span List.mem_cons_self
    rw [joined_mapOwn_cons, joined]
    by_cases above : n < part.above.length
    · rw [List.append_assoc, List.append_assoc, List.getElem?_append_left above,
        List.getElem?_append_left above]
    · have below : part.above.length + part.own.length ≤ n := by omega
      have same : (part.above ++ change part.own).length = (part.above ++ part.own).length := by
        rw [List.length_append, List.length_append, length]
      rw [List.getElem?_append_right (by rw [same, List.length_append]; exact below),
        List.getElem?_append_right (by rw [List.length_append]; exact below), same]
      apply ih
      intro p member
      have apart := outside p (List.mem_cons_of_mem _ member)
      rw [List.length_append]
      omega

theorem Cut.exists_part (cut : Cut number spans parts) {p : Nat × Nat} (member : p ∈ spans)
    (rest : List Row) : ∃ part ∈ parts, ∃ above below above' below',
      joined parts rest = above ++ part.own ++ below ∧
      joined (mapOwn change parts) rest = above' ++ change part.own ++ below' ∧
      above'.length = above.length ∧ p.1 = number + above.length ∧
      p.2 + 1 = p.1 + part.own.length := by
  induction cut with
  | nil => cases member
  | @cons number span spans part parts some_row first last cut ih =>
    rw [joined_mapOwn_cons, joined]
    rcases List.mem_cons.mp member with rfl | member
    · exact ⟨part, List.mem_cons_self, part.above, _, part.above, _, rfl, rfl, rfl, first, last⟩
    · obtain ⟨found, inside, above, below, above', below', old, new, same, start, stop⟩ := ih member
      refine ⟨found, List.mem_cons_of_mem _ inside, part.above ++ part.own ++ above, below,
        part.above ++ change part.own ++ above', below', ?_, ?_, ?_, ?_, stop⟩
      · rw [old]
        simp only [List.append_assoc]
      · rw [new]
        simp only [List.append_assoc]
      · simp only [List.length_append, length, same]
      · rw [List.length_append, List.length_append]
        omega

end MapOwn

end RowGroup

/-- The groups of a state cut the rows of its text. -/
theorem EditState.exists_parts {s : EditState} (coherent : s.Coherent)
    (apart : s.selection.ranges.Pairwise Range.Apart) : ∃ parts rest,
      s.rows = RowGroup.joined parts rest ∧
        RowGroup.Cut 1 ((LineGroup.ofState s).map LineGroup.span) parts := by
  apply RowGroup.exists_cut
  · exact (LineGroup.grouped_ofState coherent apart).spans_pairwise
  · intro p member
    obtain ⟨g, inside, rfl⟩ := List.mem_map.mp member
    have bounds := LineGroup.bounds_of_mem_ofState coherent apart inside
    rw [LineGroup.span]
    dsimp only
    omega

end MarkdownEditing

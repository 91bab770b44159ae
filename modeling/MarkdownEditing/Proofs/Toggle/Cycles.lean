import MarkdownEditing.Proofs.Toggle.Regrouped
import MarkdownEditing.Proofs.Toggle.Stages

namespace MarkdownEditing

open Row RowGroup

namespace Row

theorem between_map_text {lineBreak : Text} {rows : List Row}
    (inner : ∀ row ∈ rows.dropLast, row.ending = lineBreak) :
    between lineBreak (lastEnding rows) (rows.map text) = rows := by
  induction rows with
  | nil => rfl
  | cons row rows ih =>
    cases rows with
    | nil => rfl
    | cons next rows =>
      rw [List.dropLast_cons_cons, List.forall_mem_cons] at inner
      have later := ih inner.2
      rw [show lastEnding (next :: rows) = lastEnding (row :: next :: rows) from rfl] at later
      rw [List.map_cons, List.map_cons, between, ← List.map_cons, later, ← inner.1]

theorem ending_between {lineBreak ending : Text} {texts : List Text} {row : Row}
    (member : row ∈ (between lineBreak ending texts).dropLast) : row.ending = lineBreak := by
  fun_induction between lineBreak ending texts with
  | case1 => cases member
  | case2 => cases member
  | case3 u next rest ih =>
    have some_row : between lineBreak ending (next :: rest) ≠ [] :=
      List.ne_nil_of_length_pos (by simp)
    rw [List.dropLast_cons_of_ne_nil some_row] at member
    rcases List.mem_cons.mp member with rfl | member
    · rfl
    · exact ih member

end Row

namespace RowGroup

variable {spans : List (Nat × Nat)} {part : RowGroup} {parts : List RowGroup} {number : Nat}

theorem mapOwn_mapOwn {first second third : List Row → List Row}
    (same : ∀ part ∈ parts, second (first part.own) = third part.own) :
    mapOwn second (mapOwn first parts) = mapOwn third parts := by
  rw [mapOwn, mapOwn, mapOwn, List.map_map]
  exact List.map_congr_left fun part member => congrArg (RowGroup.mk part.above) (same part member)

theorem mapOwn_of_kept {change : List Row → List Row}
    (same : ∀ part ∈ parts, change part.own = part.own) : mapOwn change parts = parts := by
  refine (List.map_congr_left fun part member => ?_).trans (List.map_id parts)
  rw [same part member]
  rfl

theorem Cut.exists_span (cut : Cut number spans parts) (member : part ∈ parts) (rest : List Row) :
    ∃ p ∈ spans, ∃ above below, joined parts rest = above ++ part.own ++ below ∧
      p.1 = number + above.length ∧ p.2 + 1 = p.1 + part.own.length := by
  induction cut with
  | nil => cases member
  | @cons number span spans head parts some_row first last cut ih =>
    rw [joined]
    rcases List.mem_cons.mp member with rfl | member
    · exact ⟨span, List.mem_cons_self, part.above, _, rfl, first, last⟩
    · obtain ⟨p, inside, above, below, rows, start, stop⟩ := ih member
      refine ⟨p, List.mem_cons_of_mem _ inside, head.above ++ head.own ++ above, below, ?_, ?_, stop⟩
      · rw [rows]
        simp only [List.append_assoc]
      · rw [List.length_append, List.length_append]
        omega

theorem mem_joined {rest : List Row} {row : Row} : row ∈ joined parts rest ↔
    row ∈ rest ∨ ∃ part ∈ parts, row ∈ part.above ∨ row ∈ part.own := by
  induction parts with
  | nil => simp [joined]
  | cons part parts ih =>
    rw [joined, List.mem_append, List.mem_append, ih, List.exists_mem_cons_iff]
    exact or_left_comm

end RowGroup

namespace ListKind

variable {s s' : EditState} {kind : ListKind} {lineBreak : Text} {own rest : List Row}
  {parts : List RowGroup} {turn : Nat}

def toggles? (kind : ListKind) (s : EditState) : Nat → Option EditState
  | 0 => some s
  | n + 1 => (kind.toggles? s n).bind fun s' => s'.next? (kind.toggle s')

def staged (kind : ListKind) (lineBreak : Text) (turn : Nat) (own : List Row) : List Row :=
  between lineBreak (lastEnding own)
    (fronted (kind.stage turn) (1 < own.length) 0 (own.map Row.text))

@[simp] theorem length_staged (kind : ListKind) (lineBreak : Text) (turn : Nat) (own : List Row) :
    (kind.staged lineBreak turn own).length = own.length := by
  rw [staged, length_between, length_fronted, List.length_map]

theorem staged_of_nothing (nothing : kind.stage turn = fun _ => [])
    (inner : ∀ row ∈ own.dropLast, row.ending = lineBreak) : kind.staged lineBreak turn own = own := by
  rw [staged, nothing, fronted_nothing, between_map_text inner]

theorem styled_staged (plain : ∀ row ∈ own, Plain row.text) (before : turn < kind.period)
    (some_row : own ≠ []) : kind.styled lineBreak (kind.staged lineBreak turn own) =
      kind.staged lineBreak (turn + 1) own := by
  have some_text : fronted (kind.stage turn) (1 < own.length) 0 (own.map Row.text) ≠ [] := by
    apply List.ne_nil_of_length_pos
    rw [length_fronted, List.length_map]
    exact List.length_pos_of_ne_nil some_row
  have texts : (lines 1 0 (kind.staged lineBreak turn own)).map Line.text =
      fronted (kind.stage turn) (1 < (own.map Row.text).length) 0 (own.map Row.text) := by
    rw [map_text_lines, staged, map_text_between, List.length_map]
  rw [styled, restyle_stage (List.forall_mem_map.mpr plain) before texts, staged, staged,
    lastEnding_between _ _ some_text, List.length_map]

/-- Restyled rows are read back as they are if they had the configured line break between them. -/
theorem settle_styled (inner : ∀ row ∈ own.dropLast, row.ending = lineBreak)
    (settled : ∀ row ∈ own, row.settle = row) {row : Row}
    (member : row ∈ kind.styled lineBreak own) : row.settle = row := by
  obtain ⟨j, found⟩ := List.mem_iff_getElem?.mp member
  obtain ⟨old_row, old, related, ending⟩ := getElem?_styled found
  have kept : row.ending = old_row.ending := by
    rw [ending]
    split
    · rfl
    · obtain ⟨inside, rfl⟩ := List.getElem?_eq_some_iff.mp old
      have front : j < own.dropLast.length := by
        rw [List.length_dropLast]
        omega
      rw [← inner own.dropLast[j] (List.getElem_mem front), List.getElem_dropLast]
  rw [settle, if_neg]
  rintro ⟨feed, ends⟩
  rw [kept] at feed
  exact not_of_settle (settled _ (List.mem_of_getElem? old)) ⟨feed, related.returns ends⟩

/-- The rows after toggling groups of lines with the configured line break between them. -/
theorem rows_toggled_of_separated (rows : s.rows = joined parts rest)
    (cut : Cut 1 ((LineGroup.ofState s).map LineGroup.span) parts)
    (inner : ∀ part ∈ parts, ∀ row ∈ part.own.dropLast, row.ending = s.lineBreak)
    (text : s'.text = flat (joined (mapOwn (kind.styled s.lineBreak) parts) rest)) :
    s'.rows = joined (mapOwn (kind.styled s.lineBreak) parts) rest := by
  have kept : ∀ row ∈ joined parts rest, row.settle = row := fun row member =>
    settle_ofText (t := s.text) (by rwa [← EditState.rows, rows])
  rw [rows_toggled kind rows cut text]
  refine (List.map_congr_left fun row member => ?_).trans (List.map_id _)
  rcases mem_joined.mp member with below | ⟨new, made, held⟩
  · exact kept row (mem_joined.mpr (Or.inl below))
  · obtain ⟨part, given, rfl⟩ := List.mem_map.mp made
    rcases held with above | own
    · exact kept row (mem_joined.mpr (Or.inr ⟨part, given, Or.inl above⟩))
    · exact settle_styled (inner part given)
        (fun row inside => kept row (mem_joined.mpr (Or.inr ⟨part, given, Or.inr inside⟩))) own

/-- Toggling takes rows without markers from stage to stage. -/
theorem toggles_staged (reached : s.Reachable) (kind : ListKind) (rows : s.rows = joined parts rest)
    (cut : Cut 1 ((LineGroup.ofState s).map LineGroup.span) parts)
    (inner : ∀ part ∈ parts, ∀ row ∈ part.own.dropLast, row.ending = s.lineBreak)
    (plain : ∀ part ∈ parts, ∀ row ∈ part.own, Plain row.text) (within : turn ≤ kind.period) :
    ∃ s', kind.toggles? s turn = some s' ∧ s'.Reachable ∧ s'.doc.lineBreak = s.doc.lineBreak ∧
      s'.rows = joined (mapOwn (kind.staged s.lineBreak turn) parts) rest ∧
      (LineGroup.ofState s').map LineGroup.span = (LineGroup.ofState s).map LineGroup.span := by
  -- On the turns. Each one styles every group as a whole, and the groups stay on their lines.
  induction turn with
  | zero =>
    refine ⟨s, rfl, reached, rfl, ?_, rfl⟩
    rw [mapOwn_of_kept fun part member => staged_of_nothing kind.stage_zero (inner part member), rows]
  | succ turn ih =>
    obtain ⟨s', run, reached', lineBreak, rows', spans⟩ := ih (Nat.le_of_succ_le within)
    have breaks : s'.lineBreak = s.lineBreak := congrArg LineBreak.text lineBreak
    have cut' : Cut 1 ((LineGroup.ofState s').map LineGroup.span)
        (mapOwn (kind.staged s.lineBreak turn) parts) := by
      rw [spans]
      exact cut_mapOwn (kind.length_staged s.lineBreak turn) cut
    have inner' : ∀ part ∈ mapOwn (kind.staged s.lineBreak turn) parts,
        ∀ row ∈ part.own.dropLast, row.ending = s'.lineBreak := by
      rw [breaks]
      refine List.forall_mem_map.mpr fun part member row held => ?_
      exact ending_between held
    have staged : mapOwn (kind.styled s'.lineBreak) (mapOwn (kind.staged s.lineBreak turn) parts) =
        mapOwn (kind.staged s.lineBreak (turn + 1)) parts := by
      rw [breaks]
      exact mapOwn_mapOwn fun part member =>
        styled_staged (plain part member) within (cut.own_ne_nil part member)
    obtain ⟨s'', next, text, kept, -⟩ := next?_toggle rows' cut' reached'.coherent kind
    have rows'' := rows_toggled_of_separated rows' cut' inner' text
    refine ⟨s'', ?_, reached'.next next, kept.trans lineBreak, by rw [rows'', staged], ?_⟩
    · rw [toggles?, run]
      exact next
    · rw [map_span_toggled reached' kind next, spans]

/-- Lines without markers are back after two toggles of a list style, or three for tasks. On the way
there they have the markers of each stage. -/
theorem toggles_period (reached : s.Reachable) (kind : ListKind)
    (plain : ∀ g ∈ LineGroup.ofState s, ∀ l ∈ g.lines s.doc, Plain l.text)
    (separated : ∀ g ∈ LineGroup.ofState s, ∀ n row, g.first ≤ n + 1 → n + 1 < g.last →
      s.rows[n]? = some row → row.ending = s.lineBreak) :
    (∃ s', kind.toggles? s kind.period = some s' ∧ s'.text = s.text) ∧
      ∀ turn ≤ kind.period, ∃ s', kind.toggles? s turn = some s' ∧ ∀ g ∈ LineGroup.ofState s,
        (g.lines s'.doc).map Line.text = fronted (kind.stage turn) (1 < (g.lines s.doc).length) 0
          ((g.lines s.doc).map Line.text) := by
  obtain ⟨parts, rest, rows, cut⟩ := EditState.exists_parts reached.coherent reached.pairwise_apart
  have found : ∀ part ∈ parts, ∃ g ∈ LineGroup.ofState s, ∃ above below,
      s.rows = above ++ part.own ++ below ∧ g.first = above.length + 1 ∧
        g.last + 1 = g.first + part.own.length := by
    intro part member
    obtain ⟨p, inside, above, below, split, first, last⟩ := cut.exists_span member rest
    obtain ⟨g, group, rfl⟩ := List.mem_map.mp inside
    exact ⟨g, group, above, below, rows.trans split, first.trans (Nat.add_comm _ _), last⟩
  have plain_rows : ∀ part ∈ parts, ∀ row ∈ part.own, Plain row.text := by
    intro part member row held
    obtain ⟨g, group, above, below, split, first, last⟩ := found part member
    have texts := congrArg (List.map Line.text)
      (LineGroup.lines_eq reached.coherent split first last)
    rw [map_text_lines] at texts
    have text_of : row.text ∈ (g.lines s.doc).map Line.text := texts ▸ List.mem_map_of_mem held
    obtain ⟨l, line, same⟩ := List.mem_map.mp text_of
    exact same ▸ plain g group l line
  have inner : ∀ part ∈ parts, ∀ row ∈ part.own.dropLast, row.ending = s.lineBreak := by
    intro part member row held
    obtain ⟨g, group, above, below, split, first, last⟩ := found part member
    obtain ⟨j, front, rfl⟩ := List.mem_iff_getElem.mp held
    rw [List.length_dropLast] at front
    refine separated g group (above.length + j) _ (by omega) (by omega) ?_
    rw [split, List.append_assoc, List.getElem?_append_right (Nat.le_add_right _ _),
      Nat.add_sub_cancel_left, List.getElem?_append_left (by omega), List.getElem_dropLast]
    exact List.getElem?_eq_getElem _
  refine ⟨?_, fun turn within => ?_⟩
  · obtain ⟨s', run, -, -, rows', -⟩ :=
      toggles_staged reached kind rows cut inner plain_rows (Nat.le_refl _)
    rw [mapOwn_of_kept fun part member => staged_of_nothing kind.stage_period (inner part member),
      ← rows] at rows'
    refine ⟨s', run, ?_⟩
    rw [← flat_ofText s'.text, ← flat_ofText s.text]
    exact congrArg flat rows'
  · obtain ⟨s', run, reached', -, rows', -⟩ :=
      toggles_staged reached kind rows cut inner plain_rows within
    refine ⟨s', run, fun g group => ?_⟩
    obtain ⟨part, -, above, below, above', below', old, new, same, first, last⟩ :=
      cut.exists_part (kind.length_staged s.lineBreak turn) (List.mem_map_of_mem group) rest
    have start : g.first = above.length + 1 := first.trans (Nat.add_comm _ _)
    have here := LineGroup.lines_eq reached.coherent (rows.trans old) start last
    have there := LineGroup.lines_eq reached'.coherent (rows'.trans new) (start.trans (by rw [same]))
      (by rw [length_staged]; exact last)
    rw [here, there, map_text_lines, map_text_lines, length_lines, staged, map_text_between]

def plainLines : EditState :=
  .ofText ['a', '\n', '\n', 'b', '\n', 'c', '\n', 'd', 'e'] ⟨[⟨0, 4⟩, ⟨7, 7⟩, ⟨9, 8⟩], 0⟩ {}

theorem plainLines_period : (∃ s', todo.toggles? plainLines 3 = some s' ∧ s'.text = plainLines.text) ∧
    ∃ s', todo.toggles? plainLines 1 = some s' ∧
      ((⟨1, 3, [⟨0, 4⟩]⟩ : LineGroup).lines s'.doc).map Line.text =
        [['-', ' ', '[', ' ', ']', ' ', 'a'], [], ['-', ' ', '[', ' ', ']', ' ', 'b']] := by
  have groups : LineGroup.ofState plainLines =
      [⟨1, 3, [⟨0, 4⟩]⟩, ⟨5, 5, [⟨7, 7⟩, ⟨9, 8⟩]⟩] := by cbv
  have above : (⟨1, 3, [⟨0, 4⟩]⟩ : LineGroup).lines plainLines.doc =
      [⟨1, 0, 1, ['a']⟩, ⟨2, 2, 2, []⟩, ⟨3, 3, 4, ['b']⟩] := by cbv
  have below : (⟨5, 5, [⟨7, 7⟩, ⟨9, 8⟩]⟩ : LineGroup).lines plainLines.doc =
      [⟨5, 7, 9, ['d', 'e']⟩] := by cbv
  have rows : plainLines.rows = [⟨['a'], ['\n']⟩, ⟨[], ['\n']⟩, ⟨['b'], ['\n']⟩, ⟨['c'], ['\n']⟩,
      ⟨['d', 'e'], []⟩] := by cbv
  have reached : plainLines.Reachable := .ofText _ _ _
  have closed : ∀ t : Text, '-' ∉ t → ¬HasOpenBox t := by
    rintro t clean ⟨front, gap, back, rfl⟩
    exact clean (by simp [taskBox])
  have plain : ∀ t ∈ [['a'], [], ['b'], ['d', 'e']], Plain t := by
    intro t member
    simp only [List.mem_cons, List.not_mem_nil, or_false] at member
    rcases member with rfl | rfl | rfl | rfl <;>
      exact ⟨by rintro c ⟨⟩ <;> rfl, by cbv, rfl, closed _ (by decide)⟩
  have cycle := toggles_period reached todo (by
    rw [groups]
    simp only [List.forall_mem_cons, above, below]
    simp [plain]) (by
    rw [groups, rows]
    simp only [List.forall_mem_cons]
    refine ⟨?_, fun n row low high => absurd high (by omega), fun g none => absurd none List.not_mem_nil⟩
    intro n row low high found
    obtain rfl | rfl : n = 0 ∨ n = 1 := by omega
    · obtain rfl := Option.some.inj found
      rfl
    · obtain rfl := Option.some.inj found
      rfl)
  rw [groups] at cycle
  obtain ⟨s', run, each⟩ := cycle.2 1 (by decide)
  refine ⟨cycle.1, s', run, ?_⟩
  rw [each _ List.mem_cons_self, above]
  rfl

end ListKind

end MarkdownEditing

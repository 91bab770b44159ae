import MarkdownEditing.Proofs.Toggle.Groups
import MarkdownEditing.Proofs.Edit.Single
import MarkdownEditing.Proofs.Toggle.Wrapped

namespace MarkdownEditing

namespace ListKind

open Row

variable {kind : ListKind} {ls ls' : List Line} {rows : List Row} {lineBreak : Text}

theorem placesFrom_map {f : Line → Line} (same : ∀ l, (f l).text = l.text) (several : Bool)
    (index skipped : Nat) (ls : List Line) :
    placesFrom several index skipped (ls.map f) = placesFrom several index skipped ls := by
  induction ls generalizing index skipped with
  | nil => rfl
  | cons l ls ih => rw [List.map_cons, placesFrom, placesFrom, ih, same]

theorem restyle_map {f : Line → Line} (same : ∀ l, (f l).text = l.text) (ls : List Line) :
    kind.restyle (ls.map f) = kind.restyle ls := by
  have placed_map : placed (ls.map f) = (placed ls).map fun p => (f p.1, p.2) := by
    rw [placed, placed, List.length_map, placesFrom_map same, List.zip_map_left]
    rfl
  simp only [restyle, placed_map, allMarked, suggested, restyleLine, List.all_map, List.foldl_map,
    List.map_map, List.length_map, Function.comp_def, same]
  rfl

theorem restyle_congr (same : ls.map Line.text = ls'.map Line.text) :
    kind.restyle ls = kind.restyle ls' := by
  have bare : ∀ ls : List Line, kind.restyle ((ls.map Line.text).map (Line.mk 0 0 0)) =
      kind.restyle ls := by
    intro ls
    rw [List.map_map]
    exact restyle_map (f := fun l => ⟨0, 0, 0, l.text⟩) (fun _ => rfl) ls
  rw [← bare ls, same, bare ls']

theorem length_placesFrom (several : Bool) (index skipped : Nat) (ls : List Line) :
    (placesFrom several index skipped ls).length = ls.length := by
  induction ls generalizing index skipped with
  | nil => rfl
  | cons l ls ih => rw [placesFrom, List.length_cons, ih, List.length_cons]

@[simp] theorem length_restyle (kind : ListKind) (ls : List Line) :
    (kind.restyle ls).length = ls.length := by
  rw [restyle, List.length_map, placed, List.length_zip, length_placesFrom, Nat.min_self]

def styled (kind : ListKind) (lineBreak : Text) (rows : List Row) : List Row :=
  between lineBreak (lastEnding rows) (kind.restyle (lines 1 0 rows))

@[simp] theorem length_styled (kind : ListKind) (lineBreak : Text) (rows : List Row) :
    (kind.styled lineBreak rows).length = rows.length := by
  rw [styled, length_between, length_restyle, length_lines]

theorem restyle_ne_nil (some_row : rows ≠ []) : kind.restyle (lines 1 0 rows) ≠ [] := by
  apply List.ne_nil_of_length_pos
  rw [length_restyle, length_lines]
  exact List.length_pos_of_ne_nil some_row

theorem lastEnding_styled (some_row : rows ≠ []) :
    lastEnding (kind.styled lineBreak rows) = lastEnding rows :=
  lastEnding_between _ _ (restyle_ne_nil some_row)

theorem body_styled (some_row : rows ≠ []) :
    body (kind.styled lineBreak rows) = Text.join lineBreak (kind.restyle (lines 1 0 rows)) :=
  body_between _ _ (restyle_ne_nil some_row)

theorem body_styled_ne_nil (kind : ListKind) (lineBreak ending : Text) :
    body (kind.styled lineBreak [⟨[], ending⟩]) ≠ [] := by
  rw [body_styled (by simp)]
  cases kind <;>
    simp [restyle, placed, placesFrom, lines, restyleLine, afterMarker?, afterBullet?, afterNumber?,
      afterTodo?, newMarker, Text.join, Text.leadingSpaces]

end ListKind

namespace RowGroup

open Row

variable {parts : List RowGroup} {rest : List Row} {change : List Row → List Row}
  {spans : List (Nat × Nat)} {number : Nat}

def changesFrom (change : List Row → List Row) (pos : Nat) : List RowGroup → List Change
  | [] => []
  | part :: parts =>
    ⟨pos + (flat part.above).size, pos + (flat part.above).size + (body part.own).size,
      body (change part.own)⟩ ::
        changesFrom change (pos + (flat part.above).size + (flat part.own).size) parts

theorem applyFrom?_changesFrom (change : List Row → List Row) {t a e : Text}
    (text : t = a ++ e ++ flat (joined parts rest))
    (keeps : ∀ part ∈ parts, lastEnding (change part.own) = lastEnding part.own) :
    ChangeSet.applyFrom? t t.size a.size (changesFrom change (a.size + e.size) parts) =
      some (e ++ flat (joined (mapOwn change parts) rest)) := by
  induction parts generalizing a e with
  | nil =>
    have kept := ChangeSet.gap?_middle a (e ++ flat rest) []
    rw [List.append_nil, ← List.append_assoc, ← Text.size_append, ← List.append_assoc] at kept
    rw [changesFrom, ChangeSet.applyFrom?, text]
    exact kept
  | cons part parts ih =>
    -- the changed part goes from `a ++ e ++ above` over the body of the group's own rows
    have cut : t = a ++ (e ++ flat part.above) ++
        (body part.own ++ lastEnding part.own ++ flat (joined parts rest)) := by
      rw [text, joined, flat_append, flat_append, flat_eq_body part.own]
      simp only [List.append_assoc]
    have kept := ChangeSet.gap?_middle a (e ++ flat part.above)
      (body part.own ++ lastEnding part.own ++ flat (joined parts rest))
    rw [← cut, Text.size_append, ← Nat.add_assoc] at kept
    have later := @ih (a ++ e ++ flat part.above ++ body part.own) (lastEnding part.own)
      (by rw [cut]; simp only [List.append_assoc])
      fun part member => keeps part (List.mem_cons_of_mem _ member)
    have stop : (a ++ e ++ flat part.above ++ body part.own).size =
        a.size + e.size + (flat part.above).size + (body part.own).size := by
      simp only [Text.size_append]
    have next : a.size + e.size + (flat part.above).size + (flat part.own).size =
        a.size + e.size + (flat part.above).size + (body part.own).size +
          (lastEnding part.own).size := by
      rw [size_flat part.own, Nat.add_assoc _ (body part.own).size]
    rw [stop] at later
    rw [changesFrom, next, ChangeSet.applyFrom?, kept, later, ← keeps part List.mem_cons_self]
    simp only [mapOwn, List.map_cons, joined, flat_append, flat_eq_body (change part.own),
      Option.bind_eq_bind, Option.bind_some, Option.pure_def, List.append_assoc]

theorem bounds_changesFrom (rest : List Row) {pos : Nat} {c : Change}
    (member : c ∈ changesFrom change pos parts) :
    pos ≤ c.start ∧ c.start ≤ c.stop ∧ c.stop ≤ pos + (flat (joined parts rest)).size := by
  induction parts generalizing pos with
  | nil => cases member
  | cons part parts ih =>
    have size := size_flat part.own
    rw [joined, flat_append, flat_append, Text.size_append, Text.size_append]
    rcases List.mem_cons.mp member with rfl | member
    · dsimp only
      omega
    · have inside := ih member
      omega

theorem joined_ne_nil (rest : List Row) (cut : Cut number spans parts) (some_part : parts ≠ []) :
    joined parts rest ≠ [] := by
  cases cut with
  | nil => exact absurd rfl some_part
  | cons some_row => simp [joined, some_row]

theorem size_lastEnding {above own below : List Row} (chained : Chained (above ++ own ++ below))
    (some_row : own ≠ []) (some_below : below ≠ []) : 0 < (lastEnding own).size := by
  obtain ⟨front, row, rfl⟩ := (List.eq_nil_or_concat own).resolve_left some_row
  have endings := (chained.of_append some_below).2 row (by simp)
  rw [List.concat_eq_append, lastEnding_concat]
  rcases endings with same | same <;> rw [same] <;> decide

theorem before_changesFrom (cut : Cut number spans parts) (chained : Chained (joined parts rest))
    (pos : Nat) : (changesFrom change pos parts).Pairwise Change.Before := by
  induction cut generalizing pos with
  | nil => exact List.Pairwise.nil
  | @cons _ _ _ part parts some_row _ _ cut ih =>
    by_cases last : parts = []
    · subst last
      exact List.pairwise_singleton _ _
    · have below := joined_ne_nil rest cut last
      have ends := size_lastEnding chained some_row below
      refine List.pairwise_cons.mpr ⟨fun c member => ?_, ih (chained.of_append below).1 _⟩
      have bounds := bounds_changesFrom rest member
      rw [size_flat part.own] at bounds
      rw [Change.Before]
      dsimp only
      omega

end RowGroup

namespace LineGroup

open Row RowGroup

variable {s : EditState} {g : LineGroup} {groups : List LineGroup} {kind : ListKind}
  {above own below rest : List Row} {parts : List RowGroup}

section Own

variable (coherent : s.Coherent) (rows : s.rows = above ++ own ++ below)
  (first : g.first = above.length + 1) (last : g.last + 1 = g.first + own.length)

include coherent rows first last

theorem lines_eq : g.lines s.doc = Row.lines g.first (flat above).size own := by
  rw [LineGroup.lines, coherent.lines_rows, rows, filter_lines first last]

theorem change_eq (some_row : own ≠ []) : g.change s kind =
    ⟨(flat above).size, (flat above).size + (body own).size, body (kind.styled s.lineBreak own)⟩ := by
  have texts : kind.restyle (g.lines s.doc) = kind.restyle (Row.lines 1 0 own) := by
    apply ListKind.restyle_congr
    rw [lines_eq coherent rows first last, map_text_lines, map_text_lines]
  have start : (s.doc.line g.first).start = (flat above).size := by
    obtain ⟨row, more, rfl⟩ := List.exists_cons_of_ne_nil some_row
    have parts : Row.ofText s.text = above ++ row :: (more ++ below) := by
      rw [← EditState.rows, rows, List.append_assoc, List.cons_append]
    rw [coherent.doc, first, Document.line_of_rows parts, Document.lineBelow]
  have stop : (s.doc.line g.last).stop = (flat above).size + (body own).size := by
    obtain ⟨front, row, rfl⟩ := (List.eq_nil_or_concat own).resolve_left some_row
    rw [List.concat_eq_append] at rows last ⊢
    have parts : Row.ofText s.text = (above ++ front) ++ row :: below := by
      rw [← EditState.rows, rows]
      simp only [List.append_assoc, List.singleton_append]
    have number : g.last = (above ++ front).length + 1 := by
      rw [List.length_append, List.length_singleton] at last
      rw [List.length_append]
      omega
    rw [coherent.doc, number, Document.line_of_rows parts, Document.lineBelow, body_concat,
      flat_append, Text.size_append, Text.size_append, Nat.add_assoc]
  rw [change, start, stop, texts, ListKind.body_styled some_row]

end Own

theorem map_change (coherent : s.Coherent) (front : List Row)
    (rows : s.rows = front ++ joined parts rest)
    (cut : Cut (front.length + 1) (groups.map span) parts) :
    groups.map (fun g => g.change s kind) =
      changesFrom (kind.styled s.lineBreak) (flat front).size parts := by
  induction groups generalizing front parts with
  | nil =>
    cases cut
    rfl
  | cons g groups ih =>
    cases cut with
    | @cons _ _ _ part parts some_row first last cut =>
      have place : front.length + 1 + part.above.length = (front ++ part.above).length + 1 := by
        rw [List.length_append]
        omega
      have own_rows : s.rows = (front ++ part.above) ++ part.own ++ joined parts rest := by
        rw [rows, joined]
        simp only [List.append_assoc]
      have below : g.span.2 + 1 = (front ++ part.above ++ part.own).length + 1 := by
        rw [List.length_append]
        omega
      have later := ih _ own_rows (below ▸ cut)
      rw [List.map_cons, later, changesFrom,
        change_eq coherent own_rows (first.trans place) last some_row]
      simp only [flat_append, Text.size_append]

end LineGroup

namespace ListKind

open Row RowGroup

variable {s : EditState} {kind : ListKind} {parts : List RowGroup} {rest : List Row}

theorem isNoop_of_mem_changesFrom {spans : List (Nat × Nat)} {number pos : Nat} {lineBreak : Text}
    (cut : Cut number spans parts) (chained : Chained (joined parts rest)) {c : Change}
    (member : c ∈ changesFrom (kind.styled lineBreak) pos parts) : c.isNoop = false := by
  induction cut generalizing pos with
  | nil => cases member
  | @cons _ _ _ part parts some_row _ _ cut ih =>
    rcases List.mem_cons.mp member with rfl | member
    · rw [Change.isNoop, Bool.and_eq_false_iff, beq_eq_false_iff_ne, List.isEmpty_eq_false_iff]
      obtain ⟨row, more, own⟩ := List.exists_cons_of_ne_nil some_row
      cases more with
      | nil =>
        by_cases empty : row.text = []
        · right
          have same : row = ⟨[], row.ending⟩ := by rw [← empty]
          rw [own, same]
          exact body_styled_ne_nil kind lineBreak row.ending
        · left
          have some_bytes := Text.size_pos empty
          rw [own, body_singleton]
          dsimp only
          omega
      | cons next more =>
        left
        have chained' : Chained (part.above ++ [row] ++ (next :: more ++ joined parts rest)) := by
          rw [joined, own] at chained
          simpa using chained
        have some_ending := size_lastEnding chained' (by simp) (by simp)
        rw [lastEnding_singleton] at some_ending
        rw [own, body_cons_cons, Text.size_append, Text.size_append]
        dsimp only
        omega
    · cases parts with
      | nil => cases member
      | cons other parts =>
        exact ih (chained.of_append (joined_ne_nil rest cut (by simp))).1 member

section Toggle

variable (rows : s.rows = joined parts rest)
  (cut : Cut 1 ((LineGroup.ofState s).map LineGroup.span) parts)

include rows cut

theorem toggle_changes (coherent : s.Coherent) : (LineGroup.ofState s).map (fun g => g.change s kind) =
    changesFrom (kind.styled s.lineBreak) 0 parts :=
  LineGroup.map_change coherent [] rows cut

theorem ofChanges_toggle (kind : ListKind) :
    ChangeSet.ofChanges (changesFrom (kind.styled s.lineBreak) 0 parts) s.doc.size =
      .ok ⟨changesFrom (kind.styled s.lineBreak) 0 parts, s.doc.size⟩ := by
  have chained : Chained (joined parts rest) := by
    rw [← rows]
    exact chained_ofText s.text
  have size : (flat (joined parts rest)).size = s.doc.size := by
    rw [← rows, EditState.rows, flat_ofText]
    rfl
  rw [ChangeSet.ofChanges_of_before (before_changesFrom cut chained 0)]
  · rw [List.filter_eq_self.mpr]
    intro c member
    rw [isNoop_of_mem_changesFrom cut chained member]
    rfl
  · intro c member
    have bounds := bounds_changesFrom rest member
    rw [size] at bounds
    omega

/-- Toggling a list style puts the restyled rows in the place of the groups' rows. -/
theorem next?_toggle (coherent : s.Coherent) (kind : ListKind) :
    ∃ s', s.next? (kind.toggle s) = some s' ∧
    s'.text = flat (joined (mapOwn (kind.styled s.lineBreak) parts) rest) ∧
    s'.doc.lineBreak = s.doc.lineBreak ∧
    s'.selection = (Selection.ofRanges (LineGroup.allRanges s kind
      ⟨changesFrom (kind.styled s.lineBreak) 0 parts, s.doc.size⟩ 0 (LineGroup.ofState s))
        s.selection.main).clamp s'.text.size := by
  have made := ofChanges_toggle rows cut kind
  have text : s.text = [] ++ [] ++ flat (joined parts rest) := by
    rw [← rows, EditState.rows, flat_ofText]
    rfl
  have applied : (⟨changesFrom (kind.styled s.lineBreak) 0 parts, s.doc.size⟩ : ChangeSet).applyTo?
      s.text = some (flat (joined (mapOwn (kind.styled s.lineBreak) parts) rest)) :=
    applyFrom?_changesFrom _ text fun part member => lastEnding_styled (cut.own_ne_nil part member)
  obtain ⟨s', next, changed, selection⟩ := EditState.next?_of_applied (Selection.ofRanges
    (LineGroup.allRanges s kind ⟨changesFrom (kind.styled s.lineBreak) 0 parts, s.doc.size⟩ 0
      (LineGroup.ofState s)) s.selection.main) rfl applied
  have doc := (EditState.next?_changed rfl next).2.1
  refine ⟨s', ?_, changed, by rw [doc]; rfl, by rw [selection, changed]⟩
  rw [toggle, toggle_changes rows cut coherent, made]
  exact next

end Toggle

end ListKind

end MarkdownEditing

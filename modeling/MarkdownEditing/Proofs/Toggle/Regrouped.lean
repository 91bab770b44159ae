import MarkdownEditing.Proofs.Toggle.OnlyMarkers
import MarkdownEditing.Proofs.Toggle.Spread
import MarkdownEditing.Proofs.Edit.Abreast

namespace MarkdownEditing

open Row

section Numbers

variable {s : EditState} {above own below : List Row} {r : Range}

theorem EditState.Holds.size_lastEnding (holds : s.Holds (above ++ own ++ below))
    (some_row : own ≠ []) (some_below : below ≠ []) : 0 < (lastEnding own).size :=
  RowGroup.size_lastEnding holds.chained some_row some_below

/-- A range over the text of some rows touches their lines. -/
theorem EditState.Coherent.lineSpan_whole (coherent : s.Coherent)
    (holds : s.Holds (above ++ own ++ below)) (some_row : own ≠ []) (inside : r.Inside s.doc.size)
    (start : r.start = (flat above).size) (stop : r.stop = (flat above).size + (body own).size) :
    s.lineSpan r = (above.length + 1, above.length + own.length) := by
  have high := inside.stop_le
  have low := Nat.le_trans r.start_le_stop high
  refine Prod.ext ?_ ?_
  · obtain ⟨row, more, rfl⟩ := List.exists_cons_of_ne_nil some_row
    have single : above ++ row :: more ++ below = above ++ [row] ++ (more ++ below) := by simp
    rw [single] at holds
    have parts : above ++ [row] ++ (more ++ below) = above ++ row :: (more ++ below) := by simp
    refine coherent.number_onRow (parts ▸ holds) ⟨Nat.le_of_eq start.symm, ?_⟩ low
    by_cases last : more ++ below = []
    · exact Or.inl last
    · have ends := holds.size_lastEnding (by simp) last
      rw [lastEnding_singleton] at ends
      exact Or.inr (by omega)
  · obtain ⟨front, row, rfl⟩ := (List.eq_nil_or_concat own).resolve_left some_row
    rw [List.concat_eq_append] at holds stop ⊢
    have parts : above ++ (front ++ [row]) ++ below = (above ++ front) ++ row :: below := by simp
    have ends : below ≠ [] → 0 < row.ending.size := by
      intro some_below
      have size := holds.size_lastEnding (by simp) some_below
      rwa [lastEnding_concat] at size
    rw [body_concat, Text.size_append] at stop
    have number := coherent.number_onRow (parts ▸ holds) (x := r.stop) ?_ high
    · rw [List.length_append] at number
      rw [List.length_append, List.length_singleton, ← Nat.add_assoc]
      exact number
    · rw [Document.OnRow, flat_append, Text.size_append]
      refine ⟨by omega, ?_⟩
      by_cases last : below = []
      · exact Or.inl last
      · have some_ending := ends last
        exact Or.inr (by omega)

end Numbers

namespace Range

/-- Both ends of a range are as far from `stop'` as those of another range are from `stop`. -/
def AsFar (q : Range) (stop' : Nat) (r : Range) (stop : Nat) : Prop :=
  (stop' : Int) - q.start = stop - r.start ∧ (stop' : Int) - q.stop = stop - r.stop

/-- A range begins in the text of the line that ends at `stop`, and ends in the line break. -/
def Overhangs (r : Range) (stop : Nat) : Prop := r.start < stop ∧ stop < r.stop

/-- Where a range goes when the line from `start` to `stop` becomes the one from `start'` to
`stop'`. -/
inductive Lands (start stop start' stop' : Nat) (r q : Range) : Prop
  | slides (inside : r.stop ≤ stop) (fits : stop + start' ≤ r.start + stop')
      (far : q.AsFar stop' r stop)
  | collapses (inside : r.stop ≤ stop) (long : r.start + stop' < stop + start')
      (flat : q.start = q.stop ∨ r.stop = stop) (first : q.start = start' ∨ q.start = stop')
      (last : q.stop = start' ∨ q.stop = stop')
  | behind (past : stop ≤ r.start) (far : q.AsFar stop' r stop)
  | overhangs (crosses : r.Overhangs stop) (last : q.stop = stop' + 1)
      (first : q.start = if r.start = start then start' else stop')

end Range

theorem Range.inside_of_stop {r : Range} {size : Nat} (inside : r.stop ≤ size) : r.Inside size :=
  Nat.max_le.mp inside

theorem LineGroup.exists_slide? {c : Change} {r : Range} (shift : Int)
    (fits : c.start + shift ≤ r.start + c.growth + shift ∧
      r.stop + c.growth + shift ≤ c.start + shift + c.insert.size) :
    ∃ q, slide? c shift r = some q ∧ q.start = (r.start + c.growth + shift).toNat ∧
      q.stop = (r.stop + c.growth + shift).toNat := by
  have order := r.start_le_stop
  refine ⟨_, if_pos ⟨fits.1, fits.2, by omega⟩, Range.start_of_le ?_, Range.stop_of_le ?_⟩ <;>
    dsimp only <;> omega

theorem ListKind.settle_of_styled {kind : ListKind} {lineBreak : Text} {own front : List Row}
    {row' : Row} (shape : kind.styled lineBreak own = front ++ [row'])
    (settled : ∀ row ∈ own, row.settle = row) : row'.settle = row' := by
  have length := kind.length_styled lineBreak own
  rw [shape, List.length_append, List.length_singleton] at length
  have found : (kind.styled lineBreak own)[front.length]? = some row' := by
    rw [shape, List.getElem?_append_right (Nat.le_refl _), Nat.sub_self, List.getElem?_cons_zero]
  obtain ⟨row, here, related, ending⟩ := getElem?_styled found
  rw [if_pos length] at ending
  refine if_neg fun returns => ?_
  rw [ending] at returns
  exact not_of_settle (settled row (List.mem_of_getElem? here))
    ⟨returns.1, related.returns returns.2⟩

/-- A group's rows before and after a list style is toggled. The changes for the groups below it
are `behind`. -/
structure Replaced (s s' : EditState) (kind : ListKind) (set : ChangeSet) (shift : Int)
    (above own below above' below' : List Row) (behind : List Change) : Prop where
  rows : s.rows = above ++ own ++ below
  holds' : s'.Holds (above' ++ kind.styled s.lineBreak own ++ below')
  some_row : own ≠ []
  level : above'.length = above.length
  ends : below' = [] ↔ below = []
  place : ((flat above).size : Int) + shift = (flat above').size
  maps : ∀ x side, (flat above).size ≤ x → set.mapPos x side = ChangeSet.mapFrom x side shift
    (⟨(flat above).size, (flat above).size + (body own).size,
      body (kind.styled s.lineBreak own)⟩ :: behind)
  behind : ∀ d ∈ behind, below ≠ [] ∧
    (flat above).size + (flat own).size ≤ d.start ∧ d.start ≤ d.stop

namespace Replaced

variable {s s' : EditState} {kind : ListKind} {set : ChangeSet} {shift : Int} {g : LineGroup}
  {above own below above' below' : List Row} {behind : List Change} {row : Row} {x : Nat}

section Whole

variable (replaced : Replaced s s' kind set shift above own below above' below' behind)

include replaced

theorem text_size : s.text.size = (flat above).size + (body own).size + (lastEnding own).size +
    (flat below).size := by
  have parts := congrArg (Text.size ∘ flat) replaced.rows
  have own_size := size_flat own
  simp only [Function.comp_apply, EditState.rows, flat_ofText, flat_append, Text.size_append]
    at parts
  omega

theorem text_size' : s'.text.size = (flat above').size + (body (kind.styled s.lineBreak own)).size +
    (lastEnding own).size + (flat below').size := by
  have parts := congrArg Text.size replaced.holds'.text
  have own_size := size_flat (kind.styled s.lineBreak own)
  simp only [flat_append, Text.size_append] at parts
  rw [ListKind.lastEnding_styled replaced.some_row] at own_size
  omega

theorem size_lastEnding (some_below : below ≠ []) : 0 < (lastEnding own).size :=
  (EditState.holds_rows replaced.rows).size_lastEnding replaced.some_row some_below

/-- An offset at or behind the start of a group's lines, and before the next line, goes to an end of
the new lines or keeps its distance from their end. -/
theorem mapPos_reaches (side : Side) (low : (flat above).size ≤ x)
    (before : below ≠ [] → x < (flat above).size + (flat own).size) :
    (x < (flat above).size + (body own).size ∨
        (body own).size = 0 ∧ x = (flat above).size ∧ side = .before) ∧
        set.mapPos x side = (flat above').size + (if x = (flat above).size ∨ side = .before then 0
          else (body (kind.styled s.lineBreak own)).size) ∨
      (flat above).size + (body own).size ≤ x ∧
        set.mapPos x side + ((flat above).size + (body own).size) =
          (flat above').size + (body (kind.styled s.lineBreak own)).size + x := by
  obtain ⟨c, change⟩ : ∃ c : Change, c = ⟨(flat above).size, (flat above).size + (body own).size,
    body (kind.styled s.lineBreak own)⟩ := ⟨_, rfl⟩
  have start : c.start = (flat above).size := by rw [change]
  have stop : c.stop = (flat above).size + (body own).size := by rw [change]
  have growth := Change.growth_eq (c := c) (by omega)
  have place := replaced.place
  rw [replaced.maps x side low, ← change, ← stop, ← start,
    show body (kind.styled s.lineBreak own) = c.insert by rw [change]]
  rcases ChangeSet.mapFrom_cons x side shift c behind with
    ⟨_, _⟩ | ⟨_, touches, image⟩ | ⟨_, past, _, image⟩
  · omega
  · left
    refine ⟨touches.imp_right fun here => ⟨by omega, here.1.symm, here.2.2⟩, ?_⟩
    rw [image]
    omega
  · right
    have moved : ChangeSet.mapFrom x side (shift + c.growth) behind =
        (x + (shift + c.growth)).toNat := by
      apply ChangeSet.mapFrom_ahead
      intro d member
      obtain ⟨some_below, first, forward⟩ := replaced.behind d member
      have order := before some_below
      omega
    rw [image, moved]
    omega

theorem mapPos_ends (some_bytes : 0 < (body own).size) :
    set.mapPos (flat above).size .before = (flat above').size ∧
      set.mapPos ((flat above).size + (body own).size) .after =
        (flat above').size + (body (kind.styled s.lineBreak own)).size := by
  have own_size := size_flat own
  have before : below ≠ [] →
      (flat above).size + (body own).size < (flat above).size + (flat own).size := by
    intro some_below
    have some_ending := replaced.size_lastEnding some_below
    omega
  constructor
  · rcases replaced.mapPos_reaches .before (Nat.le_refl _) fun some_below => by
      have order := before some_below
      omega with ⟨_, image⟩ | ⟨past, _⟩
    · rw [image, if_pos (Or.inl rfl), Nat.add_zero]
    · omega
  · rcases replaced.mapPos_reaches .after (Nat.le_add_right _ _) before with
      ⟨touches, _⟩ | ⟨_, image⟩
    · omega
    · omega

end Whole

section Single

variable (replaced : Replaced s s' kind set shift above [row] below above' below' behind)

include replaced

theorem exists_row' : ∃ row', s'.Holds (above' ++ row' :: below') ∧ row'.ending = row.ending ∧
    kind.styled s.lineBreak [row] = [row'] := by
  obtain ⟨row', single⟩ := List.length_eq_one_iff.mp (kind.length_styled s.lineBreak [row])
  have ending : lastEnding (kind.styled s.lineBreak [row]) = lastEnding [row] :=
    ListKind.lastEnding_styled (by simp)
  rw [single] at ending
  refine ⟨row', ?_, ending, single⟩
  have holds := replaced.holds'
  rwa [single, List.append_assoc, List.singleton_append] at holds

theorem le_of_onRow (on : Document.OnRow above row below x) (inside : x ≤ s.text.size) :
    x ≤ (flat above).size + row.text.size + 1 := by
  have chained := (EditState.holds_rows replaced.rows).chained
  have size := replaced.text_size
  rw [body_singleton, lastEnding_singleton] at size
  by_cases last : below = []
  · rw [last, List.append_nil] at chained
    have ending : row.ending = [] := (chained.of_append (by simp)).1.2
    rw [last, ending, flat_nil, Text.size_nil] at size
    omega
  · have before := on.2.resolve_left last
    rcases (chained.of_append last).2 row (by simp) with ending | ending
    · have one : row.ending.size = 1 := by rw [ending]; rfl
      omega
    · have two : row.ending.size = 2 := by rw [ending]; rfl
      omega

theorem mapPos_onRow {row' : Row} (single : kind.styled s.lineBreak [row] = [row']) (side : Side)
    (on : Document.OnRow above row below x) :
    (x < (flat above).size + row.text.size ∨
        row.text.size = 0 ∧ x = (flat above).size ∧ side = .before) ∧
        set.mapPos x side = (flat above').size + (if x = (flat above).size ∨ side = .before then 0
          else row'.text.size) ∨
      (flat above).size + row.text.size ≤ x ∧
        set.mapPos x side + ((flat above).size + row.text.size) =
          (flat above').size + row'.text.size + x := by
  have reached := replaced.mapPos_reaches side on.1 fun some_below => by
    have before := on.2.resolve_left some_below
    rw [flat_cons, flat_nil, List.append_nil, Text.size_append]
    omega
  rwa [single, body_singleton, body_singleton] at reached

section Lands

variable {row' : Row} {r : Range} (single : kind.styled s.lineBreak [row] = [row'])
  (start : Document.OnRow above row below r.start) (stop : Document.OnRow above row below r.stop)
  (inside : r.stop ≤ s.text.size)

include single start stop inside

/-- Where a range of a line goes when it is not moved along with the end of the line. -/
theorem lands_map (far : r.stop ≤ (flat above).size + row.text.size →
      r.start + ((flat above').size + row'.text.size) <
        (flat above).size + row.text.size + (flat above').size) :
    Range.Lands (flat above).size ((flat above).size + row.text.size) (flat above').size
      ((flat above').size + row'.text.size) r (r.map set) := by
  have forward := r.start_le_stop
  have low := start.1
  have high := replaced.le_of_onRow stop inside
  have first := replaced.mapPos_onRow single .after start
  have last := replaced.mapPos_onRow single .before stop
  simp only [reduceCtorEq, and_false, or_false] at first
  simp only [or_true, if_true] at last
  by_cases past : (flat above).size + row.text.size ≤ r.start
  · refine .behind past ?_
    rcases r.map_cases set with ⟨caret, start', stop'⟩ | ⟨some_bytes, start', stop'⟩
    · rw [Range.AsFar, start', stop']
      omega
    · rw [Range.AsFar, start', stop']
      omega
  · rcases r.map_cases set with ⟨caret, start', stop'⟩ | ⟨some_bytes, start', stop'⟩
    · exact .collapses (by omega) (by omega) (by omega) (by omega) (by omega)
    · obtain ⟨before, image⟩ := first.resolve_right fun behind => past behind.1
      have ends : r.start = (flat above).size ∧ set.mapPos r.start .after = (flat above').size ∨
          r.start ≠ (flat above).size ∧
            set.mapPos r.start .after = (flat above').size + row'.text.size := by
        split at image
        · exact Or.inl ⟨‹_›, image⟩
        · exact Or.inr ⟨‹_›, image⟩
      by_cases beyond : (flat above).size + row.text.size < r.stop
      · refine .overhangs ⟨by omega, beyond⟩ (by omega) ?_
        split <;> omega
      · exact .collapses (by omega) (by omega) (by omega) (by omega) (by omega)

theorem lands_slide :
    Range.Lands (flat above).size ((flat above).size + row.text.size) (flat above').size
      ((flat above').size + row'.text.size) r
      ((LineGroup.slide? ⟨(flat above).size, (flat above).size + (body [row]).size,
        body (kind.styled s.lineBreak [row])⟩ shift r).getD (r.map set)) := by
  have place := replaced.place
  rw [single, body_singleton, body_singleton]
  by_cases fits : r.stop ≤ (flat above).size + row.text.size ∧
      (flat above).size + row.text.size + (flat above').size ≤
        r.start + ((flat above').size + row'.text.size)
  · obtain ⟨q, slid, start', stop'⟩ := LineGroup.exists_slide? (c := ⟨(flat above).size,
      (flat above).size + row.text.size, row'.text⟩) (r := r) shift (by
        dsimp only [Change.growth]
        omega)
    rw [slid, Option.getD_some]
    dsimp only [Change.growth] at start' stop'
    have forward := r.start_le_stop
    exact .slides fits.1 fits.2 ⟨by omega, by omega⟩
  · rw [LineGroup.slide?, if_neg (by dsimp only [Change.growth]; omega), Option.getD_none]
    exact replaced.lands_map single start stop inside fun within => by omega

end Lands

theorem lands_newRanges {row' : Row} (coherent : s.Coherent)
    (single : kind.styled s.lineBreak [row] = [row']) (first : g.first = above.length + 1)
    (one : g.first = g.last) (within : ∀ r ∈ g.ranges, r.Inside s.doc.size ∧
      g.first ≤ (s.lineSpan r).1 ∧ (s.lineSpan r).2 ≤ g.last) :
    ∃ image : Range → Range, g.newRanges s kind set shift = g.ranges.map image ∧
      ∀ r ∈ g.ranges, Document.OnRow above row below r.start ∧
        Document.OnRow above row below r.stop ∧
        Range.Lands (flat above).size ((flat above).size + row.text.size) (flat above').size
          ((flat above').size + row'.text.size) r (image r) := by
  have change : g.change s kind = _ :=
    LineGroup.change_eq coherent replaced.rows first (by simp [one]) replaced.some_row
  have parts : s.rows = above ++ row :: below := by
    rw [replaced.rows, List.append_assoc, List.singleton_append]
  refine ⟨_, if_pos one, fun r held => ?_⟩
  obtain ⟨inside, low, high⟩ := within r held
  have order := coherent.number_lineAt_mono r.start_le_stop inside.stop_le
  simp only [EditState.lineSpan] at low high
  have start := coherent.onRow_of_number parts (Nat.le_trans r.start_le_stop inside.stop_le)
    (by omega)
  have stop := coherent.onRow_of_number parts inside.stop_le (by omega)
  rw [change]
  exact ⟨start, stop, replaced.lands_slide single start stop inside.stop_le⟩

theorem onRow_of_lands {row' : Row} {r q : Range} (holds : s'.Holds (above' ++ row' :: below'))
    (ending : row'.ending = row.ending) (on : Document.OnRow above row below r.stop)
    (inside : r.stop ≤ s.text.size)
    (lands : Range.Lands (flat above).size ((flat above).size + row.text.size) (flat above').size
      ((flat above').size + row'.text.size) r q) :
    Document.OnRow above' row' below' q.start ∧ Document.OnRow above' row' below' q.stop ∧
      q.stop ≤ s'.text.size := by
  have forward := q.start_le_stop
  have high := replaced.le_of_onRow on inside
  have size := replaced.text_size
  rw [body_singleton, lastEnding_singleton] at size
  have size' := holds.text_size
  have same := congrArg Text.size ending
  have some_ending : below ≠ [] → 0 < row.ending.size := replaced.size_lastEnding
  have bounds : (flat above').size ≤ q.start ∧
      (q.stop ≤ (flat above').size + row'.text.size ∨
        q.stop + ((flat above).size + row.text.size) =
          (flat above').size + row'.text.size + r.stop) := by
    cases lands with
    | slides inside fits far =>
      rw [Range.AsFar] at far
      omega
    | collapses inside long flat first last => omega
    | behind past far =>
      rw [Range.AsFar] at far
      omega
    | overhangs crosses last first =>
      rw [Range.Overhangs] at crosses
      split at first <;> omega
  simp only [Document.OnRow, replaced.ends]
  by_cases last : below = []
  · have none_below : (flat below).size = 0 := by rw [last]; rfl
    exact ⟨⟨by omega, Or.inl last⟩, ⟨by omega, Or.inl last⟩, by omega⟩
  · have before := on.2.resolve_left last
    have some_bytes := some_ending last
    exact ⟨⟨by omega, Or.inr (by omega)⟩, ⟨by omega, Or.inr (by omega)⟩, by omega⟩

end Single

variable (replaced : Replaced s s' kind set shift above own below above' below' behind)

include replaced

theorem lines_ends (coherent' : s'.Coherent) (first : g.first = above.length + 1)
    (last : g.last + 1 = g.first + own.length) : (s'.doc.line g.first).start = (flat above').size ∧
      (s'.doc.line g.last).stop =
        (flat above').size + (body (kind.styled s.lineBreak own)).size := by
  have length := kind.length_styled s.lineBreak own
  have some_row := List.length_pos_of_ne_nil replaced.some_row
  have some_row' : kind.styled s.lineBreak own ≠ [] := List.ne_nil_of_length_pos (by omega)
  have holds := replaced.holds'
  constructor
  · obtain ⟨row', more, shape⟩ := List.exists_cons_of_ne_nil some_row'
    rw [shape, List.append_assoc, List.cons_append] at holds
    rw [first, ← replaced.level, coherent'.line_of_holds holds]
  · obtain ⟨front, row', shape⟩ := (List.eq_nil_or_concat _).resolve_left some_row'
    rw [List.concat_eq_append] at shape
    have number : g.last = (above' ++ front).length + 1 := by
      rw [shape, List.length_append, List.length_singleton] at length
      rw [List.length_append, replaced.level]
      omega
    have settled := ListKind.settle_of_styled shape fun row member =>
      settle_ofText (t := s.text) (by
        rw [← EditState.rows, replaced.rows]
        simp [member])
    rw [shape, ← List.append_assoc, List.append_assoc, List.singleton_append] at holds
    rw [number, coherent'.line_of_holds holds, settled, shape, body_concat, flat_append,
      Text.size_append, Text.size_append, Nat.add_assoc]

theorem size_body_pos (several : 1 < own.length) : 0 < (body own).size := by
  obtain ⟨row, rows, shape⟩ := List.exists_cons_of_ne_nil replaced.some_row
  obtain ⟨next, more, shape'⟩ := List.exists_cons_of_ne_nil (l := rows) (by
    rintro rfl
    rw [shape, List.length_singleton] at several
    omega)
  have parts : s.rows = above ++ [row] ++ (next :: more ++ below) := by
    rw [replaced.rows, shape, shape']
    simp
  have ends := (EditState.holds_rows parts).size_lastEnding (by simp) (by simp)
  rw [lastEnding_singleton] at ends
  rw [shape, shape', body_cons_cons, Text.size_append, Text.size_append]
  omega

/-- A group of several lines ends up with one range, over the text of its new rows. -/
theorem newRanges_several (coherent : s.Coherent) (first : g.first = above.length + 1)
    (last : g.last + 1 = g.first + own.length) (several : g.first < g.last) :
    g.newRanges s kind set shift = [⟨(flat above').size,
      (flat above').size + (body (kind.styled s.lineBreak own)).size⟩] := by
  have change : g.change s kind = _ :=
    LineGroup.change_eq coherent replaced.rows first last replaced.some_row
  have line_start : (s.doc.line g.first).start = (flat above).size := congrArg Change.start change
  have line_stop : (s.doc.line g.last).stop = (flat above).size + (body own).size :=
    congrArg Change.stop change
  obtain ⟨start, stop⟩ := replaced.mapPos_ends (replaced.size_body_pos (by omega))
  rw [LineGroup.newRanges, if_neg (Nat.ne_of_lt several), line_start, line_stop, start, stop]

theorem lineSpan_newRanges (coherent : s.Coherent) (coherent' : s'.Coherent)
    (first : g.first = above.length + 1) (last : g.last + 1 = g.first + own.length)
    (within : ∀ r ∈ g.ranges, r.Inside s.doc.size ∧ g.first ≤ (s.lineSpan r).1 ∧
      (s.lineSpan r).2 ≤ g.last) :
    ∀ q ∈ g.newRanges s kind set shift, q.Inside s'.doc.size ∧ s'.lineSpan q = g.span := by
  have forward := List.length_pos_of_ne_nil replaced.some_row
  intro q member
  by_cases one : g.first = g.last
  · obtain ⟨row, rfl⟩ : ∃ row, own = [row] := List.length_eq_one_iff.mp (by omega)
    obtain ⟨row', holds, ending, single⟩ := replaced.exists_row'
    obtain ⟨image, images, each⟩ := replaced.lands_newRanges coherent single first one within
    rw [images] at member
    obtain ⟨r, held, rfl⟩ := List.mem_map.mp member
    obtain ⟨-, stop, lands⟩ := each r held
    obtain ⟨start', stop', inside'⟩ :=
      replaced.onRow_of_lands holds ending stop (within r held).1.stop_le lands
    have low := coherent'.number_onRow holds start' (Nat.le_trans (Range.start_le_stop _) inside')
    have high := coherent'.number_onRow holds stop' inside'
    rw [replaced.level, ← first] at low high
    exact ⟨Range.inside_of_stop inside', Prod.ext low (high.trans one)⟩
  · rw [replaced.newRanges_several coherent first last (by omega)] at member
    obtain rfl := List.mem_singleton.mp member
    have size := replaced.text_size'
    have inside : Range.Inside ⟨(flat above').size, (flat above').size +
        (body (kind.styled s.lineBreak own)).size⟩ s'.doc.size := by
      refine ⟨show (flat above').size ≤ s'.text.size by omega, ?_⟩
      show (flat above').size + _ ≤ s'.text.size
      omega
    refine ⟨inside, ?_⟩
    rw [coherent'.lineSpan_whole replaced.holds' ?_ inside
      (Range.start_of_le (Nat.le_add_right _ _)) (Range.stop_of_le (Nat.le_add_right _ _)),
      replaced.level, ListKind.length_styled, LineGroup.span]
    · refine Prod.ext ?_ ?_ <;> dsimp only <;> omega
    · apply List.ne_nil_of_length_pos
      rw [ListKind.length_styled]
      exact forward

end Replaced

open RowGroup

structure ReplacedFrom (s s' : EditState) (kind : ListKind) (set : ChangeSet) (shift : Int)
    (front front' : List Row) (parts : List RowGroup) (rest : List Row) : Prop where
  rows : s.rows = front ++ joined parts rest
  holds' : s'.Holds (front' ++ joined (mapOwn (kind.styled s.lineBreak) parts) rest)
  level : front'.length = front.length
  place : ((flat front).size : Int) + shift = (flat front').size
  maps : parts ≠ [] → ∀ x side, (flat front).size ≤ x → set.mapPos x side =
    ChangeSet.mapFrom x side shift (changesFrom (kind.styled s.lineBreak) (flat front).size parts)

namespace ReplacedFrom

variable {s s' : EditState} {kind : ListKind} {set : ChangeSet} {shift : Int}
  {front front' rest : List Row} {part : RowGroup} {parts : List RowGroup} {number : Nat}
  {spans : List (Nat × Nat)}
  (replaced : ReplacedFrom s s' kind set shift front front' (part :: parts) rest)

include replaced

theorem rows_split : s.rows = (front ++ part.above) ++ part.own ++ joined parts rest := by
  rw [replaced.rows, joined]
  simp only [List.append_assoc]

theorem holds_split' : s'.Holds ((front' ++ part.above) ++ kind.styled s.lineBreak part.own ++
    joined (mapOwn (kind.styled s.lineBreak) parts) rest) := by
  have holds := replaced.holds'
  rw [joined_mapOwn_cons] at holds
  simpa only [List.append_assoc] using holds

theorem replaced_head (some_row : part.own ≠ []) (cut : Cut number spans parts) :
    Replaced s s' kind set shift (front ++ part.above) part.own (joined parts rest)
      (front' ++ part.above) (joined (mapOwn (kind.styled s.lineBreak) parts) rest)
      (changesFrom (kind.styled s.lineBreak)
        ((flat front).size + (flat part.above).size + (flat part.own).size) parts) where
  rows := replaced.rows_split
  holds' := replaced.holds_split'
  some_row := some_row
  level := by rw [List.length_append, List.length_append, replaced.level]
  ends := by
    rw [← List.length_eq_zero_iff, length_joined_mapOwn (kind.length_styled s.lineBreak),
      List.length_eq_zero_iff]
  place := by
    have place := replaced.place
    rw [flat_append, flat_append, Text.size_append, Text.size_append]
    omega
  maps x side low := by
    rw [flat_append, Text.size_append] at low ⊢
    exact replaced.maps (by simp) x side (by omega)
  behind d member := by
    have bounds := bounds_changesFrom rest member
    rw [flat_append, Text.size_append]
    refine ⟨joined_ne_nil rest cut ?_, bounds.1, bounds.2.1⟩
    rintro rfl
    cases member

theorem of_tail (some_row : part.own ≠ []) (cut : Cut number spans parts) :
    ReplacedFrom s s' kind set (shift + ((body (kind.styled s.lineBreak part.own)).size -
      (body part.own).size)) (front ++ part.above ++ part.own)
      (front' ++ part.above ++ kind.styled s.lineBreak part.own) parts rest where
  rows := replaced.rows_split
  holds' := replaced.holds_split'
  level := by
    simp only [List.length_append, replaced.level, ListKind.length_styled]
  place := by
    have place := replaced.place
    have own := size_flat part.own
    have styled := size_flat (kind.styled s.lineBreak part.own)
    rw [ListKind.lastEnding_styled some_row] at styled
    simp only [flat_append, Text.size_append]
    omega
  maps some_part x side low := by
    have ends := (EditState.holds_rows replaced.rows_split).size_lastEnding some_row
      (joined_ne_nil rest cut some_part)
    have own := size_flat part.own
    rw [flat_append, flat_append, Text.size_append, Text.size_append] at low ⊢
    rw [replaced.maps (by simp) x side (by omega), changesFrom, ← List.singleton_append,
      ChangeSet.mapFrom_append, ChangeSet.totalGrowth, ChangeSet.totalGrowth, Change.growth]
    · congr 1
      dsimp only
      omega
    · intro c member
      rw [List.mem_singleton.mp member]
      dsimp only
      omega

end ReplacedFrom

namespace LineGroup

variable {s s' : EditState} {kind : ListKind} {set : ChangeSet} {shift : Int} {g : LineGroup}
  {groups : List LineGroup} {part : RowGroup} {parts : List RowGroup}
  {front front' rest : List Row}

def width (g : LineGroup) : Nat := if g.first = g.last then g.ranges.length else 1

theorem width_pos (some_range : g.ranges ≠ []) : 0 < g.width := by
  rw [width]
  split
  · exact List.length_pos_of_ne_nil some_range
  · exact Nat.one_pos

theorem Tight.some_range (tight : g.Tight s) : g.ranges ≠ [] := by
  obtain ⟨r, held, _⟩ := tight.first
  exact List.ne_nil_of_mem held

@[simp] theorem length_newRanges (g : LineGroup) (s : EditState) (kind : ListKind) (set : ChangeSet)
    (shift : Int) : (g.newRanges s kind set shift).length = g.width := by
  rw [newRanges, width]
  split
  · rw [List.length_map]
  · rfl

theorem growth_change (coherent : s.Coherent)
    (replaced : ReplacedFrom s s' kind set shift front front' (part :: parts) rest)
    (some_row : part.own ≠ []) (first : g.first = (front ++ part.above).length + 1)
    (last : g.last + 1 = g.first + part.own.length) : (g.change s kind).growth =
      (body (kind.styled s.lineBreak part.own)).size - (body part.own).size := by
  rw [change_eq coherent replaced.rows_split first last some_row, Change.growth]
  dsimp only
  omega

/-- The ranges that a group has after a list style is toggled, with what stands around its rows. -/
def Regrouped (s s' : EditState) (kind : ListKind) (set : ChangeSet) (g : LineGroup)
    (ranges : List Range) : Prop :=
  ∃ shift above own below above' below' behind,
    Replaced s s' kind set shift above own below above' below' behind ∧
      g.first = above.length + 1 ∧ g.last + 1 = g.first + own.length ∧
      ranges = g.newRanges s kind set shift

theorem regrouped_allRanges (coherent : s.Coherent)
    (replaced : ReplacedFrom s s' kind set shift front front' parts rest)
    (cut : Cut (front.length + 1) (groups.map span) parts) :
    ∃ lists, allRanges s kind set shift groups = lists.flatten ∧
      List.Forall₂ (Regrouped s s' kind set) groups lists := by
  induction groups generalizing front front' parts shift with
  | nil => exact ⟨[], rfl, .nil⟩
  | cons g groups ih =>
    cases cut with
    | @cons _ _ _ part parts some_row first last cut =>
      have place : front.length + 1 + part.above.length = (front ++ part.above).length + 1 := by
        rw [List.length_append]
        omega
      have start : g.first = (front ++ part.above).length + 1 := first.trans place
      have below : g.span.2 + 1 = (front ++ part.above ++ part.own).length + 1 := by
        rw [List.length_append]
        omega
      obtain ⟨lists, later, regrouped⟩ := ih (replaced.of_tail some_row cut) (below ▸ cut)
      rw [← growth_change coherent replaced some_row start last] at later
      refine ⟨g.newRanges s kind set shift :: lists, ?_, .cons ?_ regrouped⟩
      · rw [allRanges, later, List.flatten_cons]
      · exact ⟨shift, _, _, _, _, _, _, replaced.replaced_head some_row cut, start, last, rfl⟩

section Spans

variable (coherent : s.Coherent) (coherent' : s'.Coherent)

include coherent coherent'

theorem Regrouped.lineSpan {ranges : List Range} (regrouped : Regrouped s s' kind set g ranges)
    (tight : g.Tight s) (inside : ∀ r ∈ g.ranges, r.Inside s.doc.size) :
    ∀ q ∈ ranges, q.Inside s'.doc.size ∧ s'.lineSpan q = g.span := by
  obtain ⟨shift, above, own, below, above', below', behind, replaced, first, last, rfl⟩ := regrouped
  exact replaced.lineSpan_newRanges coherent coherent' first last fun r held =>
    ⟨inside r held, tight.inside r held⟩

theorem lineSpans_flatten {lists : List (List Range)}
    (regrouped : List.Forall₂ (Regrouped s s' kind set) groups lists)
    (tight : ∀ g ∈ groups, g.Tight s) (inside : ∀ g ∈ groups, ∀ r ∈ g.ranges, r.Inside s.doc.size) :
    (∀ q ∈ lists.flatten, q.Inside s'.doc.size) ∧ lists.flatten.map s'.lineSpan =
      groups.flatMap fun g => List.replicate g.width g.span := by
  induction regrouped with
  | nil => exact ⟨fun q none => (nomatch none), rfl⟩
  | @cons g ranges groups lists here _ ih =>
    rw [List.forall_mem_cons] at tight inside
    have own := here.lineSpan coherent coherent' tight.1 inside.1
    obtain ⟨later, spans⟩ := ih tight.2 inside.2
    obtain ⟨_, _, _, _, _, _, _, _, _, _, rfl⟩ := here
    rw [List.flatten_cons, List.map_append, List.flatMap_cons, spans]
    refine ⟨fun q member => ?_, congrArg (· ++ _) (List.eq_replicate_iff.mpr ⟨?_, ?_⟩)⟩
    · rcases List.mem_append.mp member with member | member
      · exact (own q member).1
      · exact later q member
    · rw [List.length_map, length_newRanges]
    · exact List.forall_mem_map.mpr fun q member => (own q member).2

end Spans

theorem lineSpan_mem {ranges : List Range} {q : Range} (spans : ranges.map s'.lineSpan =
    groups.flatMap fun g => List.replicate g.width g.span) (member : q ∈ ranges) :
    s'.lineSpan q ∈ groups.map span := by
  have found := List.mem_map_of_mem (f := s'.lineSpan) member
  rw [spans] at found
  obtain ⟨g, group, copied⟩ := List.mem_flatMap.mp found
  rw [List.eq_of_mem_replicate copied]
  exact List.mem_map_of_mem group

theorem spread_of_lineSpans {ranges : List Range} (inside : ∀ q ∈ ranges, q.Inside s'.doc.size)
    (spans : ranges.map s'.lineSpan = groups.flatMap fun g => List.replicate g.width g.span)
    (tight : ∀ g ∈ groups, g.Tight s) : Spread s' (groups.map span) ranges where
  inside := inside
  within q member := ⟨_, lineSpan_mem spans member, Nat.le_refl _, Nat.le_refl _⟩
  reached p member := by
    obtain ⟨g, group, rfl⟩ := List.mem_map.mp member
    have positive := width_pos (tight g group).some_range
    have found : g.span ∈ ranges.map s'.lineSpan := by
      rw [spans]
      exact List.mem_flatMap.mpr ⟨g, group, List.mem_replicate.mpr ⟨positive.ne', rfl⟩⟩
    exact List.mem_map.mp found

end LineGroup

namespace ListKind

variable {s s' : EditState} {parts : List RowGroup} {rest : List Row}

/-- The groups of a state before and after a list style is toggled. -/
theorem replacedFrom_toggled (kind : ListKind) (rows : s.rows = joined parts rest)
    (cut : Cut 1 ((LineGroup.ofState s).map LineGroup.span) parts)
    (text : s'.text = flat (joined (mapOwn (kind.styled s.lineBreak) parts) rest)) :
    ReplacedFrom s s' kind ⟨changesFrom (kind.styled s.lineBreak) 0 parts, s.doc.size⟩ 0 [] [] parts
      rest where
  rows := rows
  holds' := ⟨text, (EditState.holds_rows rows).chained.of_becomes
    (becomes_mapOwn cut (EditState.holds_rows rows).chained) s.lineBreak_cases⟩
  level := rfl
  place := rfl
  maps _ _ _ _ := rfl

theorem ofState_ne_nil (reached : s.Reachable) : LineGroup.ofState s ≠ [] := by
  intro none_left
  have ranges := (LineGroup.grouped_ofState reached.coherent reached.pairwise_apart).ranges
  rw [none_left] at ranges
  exact reached.selection_sound.nonempty ranges.symm

/-- Toggling a list style selects the new ranges of all groups, each on the lines of its group. -/
theorem exists_regrouped (reached : s.Reachable) (kind : ListKind) : ∃ s' set lists,
    s.next? (kind.toggle s) = some s' ∧
      List.Forall₂ (LineGroup.Regrouped s s' kind set) (LineGroup.ofState s) lists ∧
      LineGroup.Spread s' ((LineGroup.ofState s).map LineGroup.span) lists.flatten ∧
      lists.flatten.map s'.lineSpan =
        (LineGroup.ofState s).flatMap (fun g => List.replicate g.width g.span) ∧
      lists.flatten ≠ [] ∧
      (kind.toggle s).selection = some (Selection.ofRanges lists.flatten s.selection.main) ∧
      s'.selection = Selection.ofRanges lists.flatten s.selection.main := by
  have grouped := LineGroup.grouped_ofState reached.coherent reached.pairwise_apart
  obtain ⟨parts, rest, rows, cut⟩ := EditState.exists_parts reached.coherent reached.pairwise_apart
  obtain ⟨s', next, text, -, selection⟩ := next?_toggle rows cut reached.coherent kind
  have replaced := replacedFrom_toggled kind rows cut text
  obtain ⟨lists, all, regrouped⟩ := LineGroup.regrouped_allRanges reached.coherent replaced cut
  obtain ⟨inside, spans⟩ := LineGroup.lineSpans_flatten reached.coherent
    (reached.next next).coherent regrouped grouped.tight fun g group r held =>
      reached.coherent.inside r (grouped.mem_ranges group held)
  have spread := LineGroup.spread_of_lineSpans inside spans grouped.tight
  obtain ⟨g, group⟩ := List.exists_mem_of_ne_nil _ (ofState_ne_nil reached)
  obtain ⟨r, made, -⟩ := spread.reached g.span (List.mem_map_of_mem group)
  have given := List.ne_nil_of_mem made
  refine ⟨s', _, lists, next, regrouped, spread, spans, given, ?_, ?_⟩
  · rw [toggle, toggle_changes rows cut reached.coherent, ofChanges_toggle rows cut kind]
    exact congrArg (fun ranges => some (Selection.ofRanges ranges s.selection.main)) all
  · rw [selection, all]
    exact Selection.clamp_ofRanges given s.selection.main inside

/-- Toggling a list style leaves the selection on the same groups of lines. -/
theorem map_span_toggled (reached : s.Reachable) (kind : ListKind)
    (next : s.next? (kind.toggle s) = some s') :
    (LineGroup.ofState s').map LineGroup.span = (LineGroup.ofState s).map LineGroup.span := by
  have reached' : s'.Reachable := reached.next next
  have apart := (LineGroup.grouped_ofState reached.coherent reached.pairwise_apart).spans_pairwise
  obtain ⟨s'', _, lists, next', -, spread, -, given, -, selection⟩ := exists_regrouped reached kind
  obtain rfl := Option.some.inj (next'.symm.trans next)
  have merged := spread.ofRanges apart reached'.coherent given s.selection.main
  refine LineGroup.map_span_ofState reached'.coherent reached'.pairwise_apart apart ?_
  rwa [selection]

end ListKind

end MarkdownEditing

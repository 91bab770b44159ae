import MarkdownEditing.Proofs.Text.Rows

namespace MarkdownEditing

namespace Line

theorem length_split (t : Text) : (split t).length = t.count '\n' + 1 := by
  induction t with
  | nil => rfl
  | cons c t ih =>
    rw [split]
    split
    · rename_i feed
      rw [List.length_cons, ih, feed, List.count_cons_self]
    · rename_i other
      rw [List.count_cons_of_ne other]
      cases pieces : split t with
      | nil => exact absurd pieces (split_ne_nil t)
      | cons piece rest => rw [← ih, pieces, List.length_cons, List.length_cons]

end Line

namespace Row

theorem length_ofPieces (pieces : List Text) : (ofPieces pieces).length = pieces.length := by
  fun_induction ofPieces pieces with
  | case1 => rfl
  | case2 => rfl
  | case3 piece next rest ih =>
    rw [List.length_cons, ih]
    rfl

theorem length_ofText (t : Text) : (ofText t).length = t.count '\n' + 1 := by
  rw [ofText, length_ofPieces, Line.length_split]

theorem Chained.of_mem {above below : List Row} {row : Row}
    (chained : Chained (above ++ row :: below)) :
    '\n' ∉ row.text ∧ (below = [] ∧ row.ending = [] ∨
      below ≠ [] ∧ (row.ending = ['\n'] ∨ row.ending = ['\r', '\n'])) := by
  have own := (chained.of_append (List.cons_ne_nil row below)).1
  cases below with
  | nil => exact ⟨own.1, Or.inl ⟨rfl, own.2⟩⟩
  | cons next rest => exact ⟨own.1.1, Or.inr ⟨List.cons_ne_nil next rest, own.1.2⟩⟩

end Row

namespace Document

open Row

def breakAfter (d : Document) (number : Nat) : Text :=
  d.slice (d.line number).stop
    (if number < d.lines.length then (d.line (number + 1)).start else d.size)

/-- A line covers the offsets from its start to the start of the next line, and the last line covers
all offsets from its start on. An offset behind the text counts as the end of the text. -/
structure Covers (d : Document) (offset : Nat) (l : Line) : Prop where
  member : l ∈ d.lines
  start_le : l.start ≤ min offset d.size
  before_next : l.number = d.lines.length ∨ min offset d.size < (d.line (l.number + 1)).start

/-- The lines of a document lie in its text one after the other, each with its line break, and are
found by their numbers and by the offsets on them. -/
structure Addressed (d : Document) : Prop where
  length : d.lines.length = d.text.count '\n' + 1
  whole : ((List.range d.lines.length).flatMap fun i =>
    (d.line (i + 1)).text ++ d.breakAfter (i + 1)) = d.text
  number : ∀ i < d.lines.length, (d.line (i + 1)).number = i + 1
  endings : ∀ i, i + 1 < d.lines.length → d.breakAfter (i + 1) = ['\r', '\n'] ∨
    d.breakAfter (i + 1) = ['\n'] ∧ (d.line (i + 1)).text.getLast? ≠ some '\r'
  no_ending : d.breakAfter d.lines.length = []
  single : ∀ l ∈ d.lines, '\n' ∉ l.text
  cut : ∀ l ∈ d.lines, d.text.cut? l.start l.stop = some l.text
  covers_iff : ∀ offset l, d.Covers offset l ↔ l = d.lineAt offset
  line_number : ∀ offset, d.line (d.lineAt offset).number = d.lineAt offset

variable {t : Text} {lineBreak : LineBreak} {row : Row} {above below : List Row} {offset : Nat}
  {l : Line}

theorem length_lines : (ofText t lineBreak).lines.length = (Row.ofText t).length := by
  show (Line.ofText t).length = _
  rw [← lines_ofText, Row.length_lines]

theorem exists_rows_of_mem (member : l ∈ (ofText t lineBreak).lines) :
    ∃ above row below, Row.ofText t = above ++ row :: below ∧ l = lineBelow above row := by
  change l ∈ Line.ofText t at member
  rw [← lines_ofText] at member
  obtain ⟨above, row, below, parts, same⟩ := exists_row_of_mem_lines member
  refine ⟨above, row, below, parts, ?_⟩
  rw [same, lineBelow, Nat.add_comm 1, Nat.zero_add]

theorem exists_rows_of_lt {i : Nat} (inside : i < (Row.ofText t).length) :
    ∃ above row below, Row.ofText t = above ++ row :: below ∧ above.length = i := by
  refine ⟨(Row.ofText t).take i, (Row.ofText t)[i], (Row.ofText t).drop (i + 1), ?_, ?_⟩
  · rw [List.getElem_cons_drop, List.take_append_drop]
  · exact List.length_take_of_le (Nat.le_of_lt inside)

section Rows

variable (parts : Row.ofText t = above ++ row :: below)
include parts

theorem mem_lines_of_rows : lineBelow above row ∈ (ofText t lineBreak).lines := by
  rw [lines_of_rows parts]
  exact List.mem_append_right _ List.mem_cons_self

theorem text_of_rows : t = flat above ++ row.text ++ row.ending ++ flat below := by
  rw [← flat_ofText t, parts, flat_append, flat_cons]
  simp only [List.append_assoc]

theorem line_succ_of_rows {next : Row} {rest : List Row} (shape : below = next :: rest) :
    ((ofText t lineBreak).line (above.length + 2)).start =
      (flat above).size + row.text.size + row.ending.size := by
  have later : Row.ofText t = (above ++ [row]) ++ next :: rest := by
    rw [parts, shape, List.append_assoc, List.singleton_append]
  have found : (ofText t lineBreak).line ((above ++ [row]).length + 1) = _ := line_of_rows later
  rw [List.length_append, List.length_singleton] at found
  rw [found, lineBelow]
  simp only [flat_append, flat_cons, flat_nil, List.append_nil, Text.size_append, Nat.add_assoc]

theorem length_of_rows :
    (ofText t lineBreak).lines.length = above.length + 1 + below.length := by
  rw [length_lines, parts, List.length_append, List.length_cons]
  omega

theorem breakAfter_of_rows : (ofText t lineBreak).breakAfter (above.length + 1) = row.ending := by
  have text := text_of_rows parts
  have stop : (if above.length + 1 < (ofText t lineBreak).lines.length then
      ((ofText t lineBreak).line (above.length + 2)).start else (ofText t lineBreak).size) =
        (flat above).size + row.text.size + row.ending.size := by
    rw [length_of_rows parts]
    cases below with
    | nil =>
      have size := congrArg Text.size text
      rw [flat_nil, List.append_nil, Text.size_append, Text.size_append] at size
      rw [List.length_nil, Nat.add_zero, if_neg (Nat.lt_irrefl _)]
      exact size
    | cons next rest =>
      rw [if_pos (Nat.lt_add_of_pos_right (List.length_pos_of_ne_nil (List.cons_ne_nil next rest))),
        line_succ_of_rows parts rfl]
  rw [breakAfter, stop, line_of_rows parts, lineBelow, slice, ← Text.size_append]
  show Text.slice t _ _ = _
  rw [text]
  exact Text.slice_middle _ _ _

theorem covers_iff_onRow :
    (ofText t lineBreak).Covers offset (lineBelow above row) ↔
      OnRow above row below (min offset t.size) := by
  have last : (lineBelow above row).number = (ofText t lineBreak).lines.length ↔ below = [] := by
    rw [length_of_rows parts, lineBelow, ← List.length_eq_zero_iff]
    dsimp only
    omega
  have next : below ≠ [] → ((ofText t lineBreak).line ((lineBelow above row).number + 1)).start =
      (flat above).size + row.text.size + row.ending.size := by
    intro some_row
    obtain ⟨next, rest, shape⟩ := List.exists_cons_of_ne_nil some_row
    exact line_succ_of_rows parts shape
  constructor
  · rintro ⟨_, low, high⟩
    refine ⟨low, ?_⟩
    rw [last] at high
    by_cases none_below : below = []
    · exact Or.inl none_below
    · rw [next none_below] at high
      exact high
  · rintro ⟨low, high⟩
    refine ⟨mem_lines_of_rows parts, low, ?_⟩
    rw [last]
    by_cases none_below : below = []
    · exact Or.inl none_below
    · rw [next none_below]
      exact high

end Rows

theorem lineAt_min : (ofText t lineBreak).lineAt (min offset t.size) =
    (ofText t lineBreak).lineAt offset := by
  show (ofText t lineBreak).lineAt (min offset (ofText t lineBreak).size) = _
  rw [lineAt, lineAt, Nat.min_assoc, Nat.min_self]

theorem exists_rows_of_offset (t : Text) (lineBreak : LineBreak) (offset : Nat) :
    ∃ above row below, Row.ofText t = above ++ row :: below ∧
      OnRow above row below (min offset t.size) ∧
      (ofText t lineBreak).lineAt offset = lineBelow above row := by
  obtain ⟨above, row, below, parts, on, line⟩ :=
    exists_row lineBreak (Nat.min_le_right offset t.size)
  exact ⟨above, row, below, parts, on, lineAt_min.symm.trans line⟩

/-- The lines of a document with their line breaks are the rows of its text. -/
theorem map_range_lines (t : Text) (lineBreak : LineBreak) :
    ((List.range (ofText t lineBreak).lines.length).map fun i =>
      (⟨((ofText t lineBreak).line (i + 1)).text, (ofText t lineBreak).breakAfter (i + 1)⟩ : Row)) =
        Row.ofText t := by
  refine List.ext_getElem (by rw [List.length_map, List.length_range, length_lines]) ?_
  intro i _ inside
  obtain ⟨above, row, below, parts, rfl⟩ := exists_rows_of_lt inside
  rw [List.getElem_map, List.getElem_range, line_of_rows parts, breakAfter_of_rows parts]
  simp [parts, lineBelow]

theorem breakAfter_of_lt {i : Nat} (inside : i + 1 < (ofText t lineBreak).lines.length) :
    (ofText t lineBreak).breakAfter (i + 1) = ['\r', '\n'] ∨
      (ofText t lineBreak).breakAfter (i + 1) = ['\n'] ∧
        ((ofText t lineBreak).line (i + 1)).text.getLast? ≠ some '\r' := by
  rw [length_lines] at inside
  obtain ⟨above, row, below, parts, rfl⟩ := exists_rows_of_lt (Nat.lt_of_succ_lt inside)
  rw [breakAfter_of_rows parts, line_of_rows parts, lineBelow]
  have member : row ∈ Row.ofText t := by
    rw [parts]
    exact List.mem_append_right _ List.mem_cons_self
  have settled : row.settle = row := settle_ofText member
  have chained := chained_ofText t
  rw [parts] at chained inside
  rcases chained.of_mem.2 with ⟨rfl, _⟩ | ⟨_, feed | both⟩
  · rw [List.length_append, List.length_singleton] at inside
    exact absurd inside (Nat.lt_irrefl _)
  · exact Or.inr ⟨feed, fun returns => not_of_settle settled ⟨feed, returns⟩⟩
  · exact Or.inl both

theorem breakAfter_last (t : Text) (lineBreak : LineBreak) :
    (ofText t lineBreak).breakAfter (ofText t lineBreak).lines.length = [] := by
  obtain ⟨above, last, parts⟩ := (List.eq_nil_or_concat (Row.ofText t)).resolve_left
    (ofPieces_ne_nil (Line.split_ne_nil t))
  rw [List.concat_eq_append] at parts
  have chained := chained_ofText t
  rw [parts] at chained
  rw [length_of_rows parts, List.length_nil, Nat.add_zero, breakAfter_of_rows parts]
  exact (chained.of_append (List.cons_ne_nil last [])).1.2

theorem covers_iff_lineAt : (ofText t lineBreak).Covers offset l ↔
    l = (ofText t lineBreak).lineAt offset := by
  constructor
  · intro covers
    obtain ⟨above, row, below, parts, rfl⟩ := exists_rows_of_mem covers.member
    have on := (covers_iff_onRow parts).mp covers
    rw [← lineAt_min, lineAt_of_rows parts on (Nat.min_le_right _ _)]
  · rintro rfl
    obtain ⟨above, row, below, parts, on, line⟩ := exists_rows_of_offset t lineBreak offset
    rw [line]
    exact (covers_iff_onRow parts).mpr on

/-- Every document is addressed by the numbers of its lines and by the offsets of its text. -/
theorem addressed_ofText (t : Text) (lineBreak : LineBreak) : (ofText t lineBreak).Addressed where
  length := length_lines.trans (length_ofText t)
  whole := by
    have whole := flat_ofText t
    rw [← map_range_lines t lineBreak, flat, List.flatMap_map] at whole
    exact whole
  number := by
    intro i inside
    rw [length_lines] at inside
    obtain ⟨above, row, below, parts, rfl⟩ := exists_rows_of_lt inside
    rw [line_of_rows parts, lineBelow]
  endings := fun i inside => breakAfter_of_lt inside
  no_ending := breakAfter_last t lineBreak
  single := by
    intro l member
    obtain ⟨above, row, below, parts, rfl⟩ := exists_rows_of_mem member
    have chained := chained_ofText t
    rw [parts] at chained
    exact chained.of_mem.1
  cut := by
    intro l member
    obtain ⟨above, row, below, parts, rfl⟩ := exists_rows_of_mem member
    show t.cut? _ _ = _
    rw [text_of_rows parts, List.append_assoc]
    exact Text.cut?_middle _ _ _
  covers_iff := fun offset l => covers_iff_lineAt
  line_number := by
    intro offset
    obtain ⟨above, row, below, parts, _, line⟩ := exists_rows_of_offset t lineBreak offset
    rw [line]
    exact line_of_rows parts

end Document

end MarkdownEditing

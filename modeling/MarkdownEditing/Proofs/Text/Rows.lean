import Mathlib.Data.List.Forall2
import MarkdownEditing.Proofs.Text.Lines

namespace MarkdownEditing

structure Row where
  text : Text
  ending : Text
  deriving DecidableEq, Repr

namespace Row

def flat (rows : List Row) : Text := rows.flatMap fun row => row.text ++ row.ending

@[simp] theorem flat_nil : flat [] = [] := rfl

@[simp] theorem flat_cons (row : Row) (rows : List Row) :
    flat (row :: rows) = row.text ++ row.ending ++ flat rows := rfl

@[simp] theorem flat_append (rows rows' : List Row) :
    flat (rows ++ rows') = flat rows ++ flat rows' := List.flatMap_append

def ofPieces : List Text → List Row
  | [] => []
  | [last] => [⟨last, []⟩]
  | piece :: next :: rest =>
    ⟨Line.dropReturn piece, if piece.getLast? = some '\r' then ['\r', '\n'] else ['\n']⟩ ::
      ofPieces (next :: rest)

def ofText (t : Text) : List Row := ofPieces (Line.split t)

def lines (number start : Nat) : List Row → List Line
  | [] => []
  | row :: rows =>
    ⟨number, start, start + row.text.size, row.text⟩ ::
      lines (number + 1) (start + row.text.size + row.ending.size) rows

/-- Rows of one text: each is a line with a line break, but the last has no line break. -/
def Chained : List Row → Prop
  | [] => False
  | [last] => '\n' ∉ last.text ∧ last.ending = []
  | row :: next :: rest =>
    ('\n' ∉ row.text ∧ (row.ending = ['\n'] ∨ row.ending = ['\r', '\n'])) ∧ Chained (next :: rest)

/-- A row as it is read back: a carriage return at the end of its text goes to the line feed. -/
def settle (row : Row) : Row :=
  if row.ending = ['\n'] ∧ row.text.getLast? = some '\r' then ⟨row.text.dropLast, ['\r', '\n']⟩
  else row

variable {t : Text} {row : Row} {rows rows' above below : List Row} {piece : Text}
  {pieces : List Text} {number start : Nat}

theorem whole_ofPiece (piece : Text) :
    Line.dropReturn piece ++ (if piece.getLast? = some '\r' then ['\r', '\n'] else ['\n']) =
      piece ++ ['\n'] := by
  unfold Line.dropReturn
  split
  · rename_i ends
    obtain ⟨front, rfl⟩ := List.getLast?_eq_some_iff.mp ends
    simp
  · rfl

theorem flat_ofPieces (pieces : List Text) : flat (ofPieces pieces) = Text.join ['\n'] pieces := by
  fun_induction ofPieces pieces with
  | case1 => rfl
  | case2 last => simp [Text.join]
  | case3 piece next rest ih =>
    rw [flat_cons, ih, whole_ofPiece, Line.join_cons_cons, List.append_assoc]
    rfl

theorem flat_ofText (t : Text) : flat (ofText t) = t := by
  rw [ofText, flat_ofPieces, Line.join_split]

theorem ofPieces_ne_nil (some_piece : pieces ≠ []) : ofPieces pieces ≠ [] := by
  fun_cases ofPieces pieces with
  | case1 => exact absurd rfl some_piece
  | case2 => simp
  | case3 => simp

theorem chained_ofPieces (some_piece : pieces ≠ []) (clean : ∀ piece ∈ pieces, '\n' ∉ piece) :
    Chained (ofPieces pieces) := by
  fun_induction ofPieces pieces with
  | case1 => exact absurd rfl some_piece
  | case2 last => exact ⟨clean last List.mem_cons_self, rfl⟩
  | case3 piece next rest ih =>
    have later := ih (by simp) fun piece member => clean piece (List.mem_cons_of_mem _ member)
    have first : '\n' ∉ Line.dropReturn piece := fun member =>
      clean piece List.mem_cons_self (Line.mem_dropReturn member)
    cases below : ofPieces (next :: rest) with
    | nil => exact absurd below (ofPieces_ne_nil (by simp))
    | cons row rows =>
      rw [below] at later
      refine ⟨⟨first, ?_⟩, later⟩
      split
      · exact Or.inr rfl
      · exact Or.inl rfl

theorem chained_ofText (t : Text) : Chained (ofText t) :=
  chained_ofPieces (Line.split_ne_nil t) fun _ => Line.not_mem_split

theorem settle_ofPieces (member : row ∈ ofPieces pieces) : row.settle = row := by
  fun_induction ofPieces pieces with
  | case1 => cases member
  | case2 last =>
    rw [List.mem_singleton.mp member, settle, if_neg (by simp)]
  | case3 piece next rest ih =>
    rcases List.mem_cons.mp member with rfl | member
    · rw [settle, if_neg]
      rintro ⟨feed, returns⟩
      split at feed
      · cases feed
      · rename_i ends
        rw [Line.dropReturn, if_neg ends] at returns
        exact ends returns
    · exact ih member

theorem settle_ofText (member : row ∈ ofText t) : row.settle = row := settle_ofPieces member

theorem flat_settle (row : Row) : row.settle.text ++ row.settle.ending = row.text ++ row.ending := by
  rw [settle]
  split
  · rename_i found
    obtain ⟨front, parts⟩ := List.getLast?_eq_some_iff.mp found.2
    simp [found.1, parts]
  · rfl

@[simp] theorem flat_map_settle (rows : List Row) : flat (rows.map settle) = flat rows := by
  induction rows with
  | nil => rfl
  | cons row rows ih => rw [List.map_cons, flat_cons, flat_cons, ih, flat_settle]

theorem not_of_settle (settled : row.settle = row) :
    ¬(row.ending = ['\n'] ∧ row.text.getLast? = some '\r') := by
  intro found
  rw [settle, if_pos found] at settled
  have ending := found.1
  rw [← settled] at ending
  cases ending

theorem split_clean (clean : '\n' ∉ piece) : Line.split piece = [piece] := by
  induction piece with
  | nil => rfl
  | cons c piece ih =>
    have other : c ≠ '\n' := fun same => clean (same ▸ List.mem_cons_self)
    rw [Line.split, if_neg other, ih fun member => clean (List.mem_cons_of_mem _ member)]

theorem split_feed (clean : '\n' ∉ piece) (t : Text) :
    Line.split (piece ++ '\n' :: t) = piece :: Line.split t := by
  induction piece with
  | nil => rw [List.nil_append, Line.split, if_pos rfl]
  | cons c piece ih =>
    have other : c ≠ '\n' := fun same => clean (same ▸ List.mem_cons_self)
    rw [List.cons_append, Line.split, if_neg other,
      ih fun member => clean (List.mem_cons_of_mem _ member)]

theorem ofText_feed (clean : '\n' ∉ piece) (t : Text) :
    ofText (piece ++ '\n' :: t) =
      ⟨Line.dropReturn piece, if piece.getLast? = some '\r' then ['\r', '\n'] else ['\n']⟩ ::
        ofText t := by
  rw [ofText, split_feed clean, ofText]
  cases pieces : Line.split t with
  | nil => exact absurd pieces (Line.split_ne_nil t)
  | cons next rest => rfl

/-- The rows of the text that rows make up. -/
theorem ofText_flat (chained : Chained rows) : ofText (flat rows) = rows.map settle := by
  fun_induction Chained rows with
  | case1 => exact chained.elim
  | case2 last =>
    obtain ⟨clean, ending⟩ := chained
    have same : last.settle = last := if_neg (by simp [ending])
    rw [flat_cons, flat_nil, List.append_nil, ending, List.append_nil, ofText, split_clean clean,
      List.map_cons, List.map_nil, same, ofPieces, ← ending]
  | case3 row next rest ih =>
    obtain ⟨⟨clean, ending⟩, later⟩ := chained
    have below := ih later
    rw [List.map_cons, ← below, flat_cons]
    rcases ending with feed | both
    · rw [feed, List.append_assoc, List.singleton_append, ofText_feed clean, settle,
        Line.dropReturn]
      by_cases ends : row.text.getLast? = some '\r'
      · rw [if_pos ends, if_pos ends, if_pos ⟨feed, ends⟩]
      · rw [if_neg ends, if_neg ends, if_neg fun found => ends found.2, ← feed]
    · have clean' : '\n' ∉ row.text ++ ['\r'] := by simpa using clean
      have ends : (row.text ++ ['\r']).getLast? = some '\r' := by simp
      have same : row.settle = row := if_neg (by simp [both])
      have parts : row.text ++ ['\r', '\n'] ++ flat (next :: rest) =
          (row.text ++ ['\r']) ++ '\n' :: flat (next :: rest) := by simp
      rw [both, parts, ofText_feed clean', if_pos ends, Line.dropReturn, if_pos ends,
        List.dropLast_concat, same, ← both]

theorem Chained.of_append (chained : Chained (above ++ rows)) (some_row : rows ≠ []) :
    Chained rows ∧ ∀ row ∈ above, row.ending = ['\n'] ∨ row.ending = ['\r', '\n'] := by
  induction above with
  | nil => exact ⟨chained, fun row member => nomatch member⟩
  | cons row above ih =>
    obtain ⟨next, rest, shape⟩ :=
      List.exists_cons_of_ne_nil (List.append_ne_nil_of_right_ne_nil above some_row)
    rw [List.cons_append, shape] at chained
    obtain ⟨⟨_, ending⟩, later⟩ := chained
    rw [← shape] at later
    obtain ⟨below, endings⟩ := ih later
    refine ⟨below, fun row' member => ?_⟩
    rcases List.mem_cons.mp member with rfl | member
    · exact ending
    · exact endings row' member

theorem Chained.close_last {last : Row} {lineBreak : Text} (chained : Chained (above ++ [last]))
    (break_text : lineBreak = ['\n'] ∨ lineBreak = ['\r', '\n']) :
    Chained (above ++ [⟨last.text, lineBreak⟩, ⟨[], []⟩]) := by
  induction above with
  | nil => exact ⟨⟨chained.1, break_text⟩, List.not_mem_nil, rfl⟩
  | cons row above ih => cases above <;> exact ⟨chained.1, ih chained.2⟩

theorem exists_of_suffix {lineBreak : Text} (break_text : lineBreak = ['\n'] ∨ lineBreak = ['\r', '\n'])
    (ends : lineBreak <:+ t) :
    ∃ above row, ofText t = above ++ [row, ⟨[], []⟩] ∧ lineBreak <:+ row.ending := by
  obtain ⟨front, rfl⟩ := ends
  obtain ⟨above, last, parts⟩ := (List.eq_nil_or_concat (ofText front)).resolve_left
    (ofPieces_ne_nil (Line.split_ne_nil front))
  rw [List.concat_eq_append] at parts
  have chained := chained_ofText front
  have text := flat_ofText front
  rw [parts] at chained text
  have ending : last.ending = [] := (chained.of_append (by simp)).1.2
  have whole : front ++ lineBreak = flat (above ++ [⟨last.text, lineBreak⟩, ⟨[], []⟩]) := by
    rw [← text]
    simp [ending]
  refine ⟨above.map settle, settle ⟨last.text, lineBreak⟩, ?_, ?_⟩
  · rw [whole, ofText_flat (chained.close_last break_text), List.map_append]
    rfl
  · rw [settle]
    split
    · rename_i found
      have feed : lineBreak = ['\n'] := found.1
      rw [feed]
      exact ⟨['\r'], rfl⟩
    · exact List.suffix_refl _

/-- What a row may become when lines are rewritten: its text stays on one line, and a line break
stays or turns into the one that is put in. -/
structure Becomes (lineBreak : Text) (row row' : Row) : Prop where
  clean : '\n' ∉ row.text → '\n' ∉ row'.text
  ending : row'.ending = row.ending ∨ row.ending ≠ [] ∧ row'.ending = lineBreak

theorem Becomes.refl (lineBreak : Text) (row : Row) : Becomes lineBreak row row := ⟨id, Or.inl rfl⟩

theorem Chained.of_becomes {lineBreak : Text} (chained : Chained rows)
    (related : List.Forall₂ (Becomes lineBreak) rows rows')
    (break_text : lineBreak = ['\n'] ∨ lineBreak = ['\r', '\n']) : Chained rows' := by
  induction related with
  | nil => exact chained.elim
  | @cons row row' rows rows' here later ih =>
    cases later with
    | nil =>
      obtain ⟨clean, ending⟩ := chained
      refine ⟨here.clean clean, ?_⟩
      rcases here.ending with same | ⟨some_break, _⟩
      · rw [same, ending]
      · exact absurd ending some_break
    | cons first rest =>
      obtain ⟨⟨clean, ending⟩, below⟩ := chained
      refine ⟨⟨here.clean clean, ?_⟩, ih below⟩
      rcases here.ending with same | ⟨_, same⟩
      · rwa [same]
      · rwa [same]

def body (rows : List Row) : Text := flat rows.dropLast ++ (rows.getLast?.map text).getD []

def lastEnding (rows : List Row) : Text := (rows.getLast?.map ending).getD []

@[simp] theorem body_singleton (row : Row) : body [row] = row.text := rfl

@[simp] theorem lastEnding_singleton (row : Row) : lastEnding [row] = row.ending := rfl

theorem body_concat (rows : List Row) (row : Row) : body (rows ++ [row]) = flat rows ++ row.text := by
  rw [body, List.dropLast_concat, List.getLast?_concat]
  rfl

theorem lastEnding_concat (rows : List Row) (row : Row) : lastEnding (rows ++ [row]) = row.ending := by
  rw [lastEnding, List.getLast?_concat]
  rfl

theorem body_cons_cons (row next : Row) (rows : List Row) :
    body (row :: next :: rows) = row.text ++ row.ending ++ body (next :: rows) := by
  rw [body, body, List.dropLast_cons_cons, flat_cons]
  simp only [List.getLast?_cons_cons, List.append_assoc]

theorem flat_eq_body (rows : List Row) : flat rows = body rows ++ lastEnding rows := by
  rcases List.eq_nil_or_concat rows with rfl | ⟨front, row, rfl⟩
  · rfl
  · rw [List.concat_eq_append, body_concat, lastEnding_concat, flat_append, flat_cons, flat_nil,
      List.append_nil, List.append_assoc]

theorem size_flat (rows : List Row) : (flat rows).size = (body rows).size + (lastEnding rows).size := by
  rw [flat_eq_body, Text.size_append]

theorem lastEnding_of_getElem? {j : Nat}
    (found : rows[j]? = some row) (final : j + 1 = rows.length) : lastEnding rows = row.ending := by
  rw [lastEnding, List.getLast?_eq_getElem?, ← final, Nat.add_sub_cancel, found]
  rfl

def between (lineBreak ending : Text) : List Text → List Row
  | [] => []
  | [last] => [⟨last, ending⟩]
  | u :: next :: rest => ⟨u, lineBreak⟩ :: between lineBreak ending (next :: rest)

section Between

variable (lineBreak ending : Text)

@[simp] theorem length_between (texts : List Text) :
    (between lineBreak ending texts).length = texts.length := by
  fun_induction between lineBreak ending texts with
  | case1 => rfl
  | case2 => rfl
  | case3 u next rest ih => simp [ih]

theorem map_text_between (texts : List Text) :
    (between lineBreak ending texts).map text = texts := by
  fun_induction between lineBreak ending texts with
  | case1 => rfl
  | case2 => rfl
  | case3 u next rest ih => rw [List.map_cons, ih]

theorem flat_between {texts : List Text} (some_text : texts ≠ []) :
    flat (between lineBreak ending texts) = Text.join lineBreak texts ++ ending := by
  fun_induction between lineBreak ending texts with
  | case1 => exact absurd rfl some_text
  | case2 u => simp [Text.join]
  | case3 u next rest ih =>
    rw [flat_cons, ih (by simp)]
    simp [Text.join]

theorem lastEnding_between {texts : List Text} (some_text : texts ≠ []) :
    lastEnding (between lineBreak ending texts) = ending := by
  fun_induction between lineBreak ending texts with
  | case1 => exact absurd rfl some_text
  | case2 => rfl
  | case3 u next rest ih =>
    obtain ⟨row, rows, shape⟩ := List.exists_cons_of_ne_nil
      (l := between lineBreak ending (next :: rest))
      (List.ne_nil_of_length_pos (by rw [length_between]; simp))
    have later := ih (by simp)
    rw [shape] at later ⊢
    exact later

theorem body_between {texts : List Text} (some_text : texts ≠ []) :
    body (between lineBreak ending texts) = Text.join lineBreak texts := by
  have parts := flat_eq_body (between lineBreak ending texts)
  rw [flat_between _ _ some_text, lastEnding_between _ _ some_text] at parts
  exact (List.append_cancel_right parts).symm

theorem getElem?_between (texts : List Text) (i : Nat) : (between lineBreak ending texts)[i]? =
    texts[i]?.map fun u => ⟨u, if i + 1 = texts.length then ending else lineBreak⟩ := by
  fun_induction between lineBreak ending texts generalizing i with
  | case1 => rfl
  | case2 u => cases i <;> simp
  | case3 u next rest ih =>
    cases i with
    | zero => simp
    | succ i =>
      rw [List.getElem?_cons_succ, ih, List.getElem?_cons_succ]
      simp

end Between

theorem becomes_between {lineBreak : Text} {texts : List Text}
    (related : List.Forall₂ (fun row u => '\n' ∉ row.text → '\n' ∉ u) rows texts)
    (inner : ∀ row ∈ rows.dropLast, row.ending ≠ []) :
    List.Forall₂ (Becomes lineBreak) rows (between lineBreak (lastEnding rows) texts) := by
  induction related with
  | nil => exact .nil
  | @cons row u rows texts here later ih =>
    cases later with
    | nil => exact .cons ⟨here, Or.inl rfl⟩ .nil
    | @cons row' v rows texts first rest =>
      rw [List.dropLast_cons_cons] at inner
      refine .cons ⟨here, Or.inr ⟨inner row List.mem_cons_self, rfl⟩⟩ ?_
      exact ih fun other member => inner other (List.mem_cons_of_mem _ member)

theorem lines_ofPieces (number start : Nat) (pieces : List Text) :
    lines number start (ofPieces pieces) = Line.numbered number start pieces := by
  fun_induction ofPieces pieces generalizing number start with
  | case1 => rfl
  | case2 last => rfl
  | case3 piece next rest ih =>
    have size := congrArg Text.size (whole_ofPiece piece)
    rw [Text.size_append, Text.size_append] at size
    have one : Text.size ['\n'] = 1 := rfl
    rw [lines, ih, Line.numbered_cons_cons]
    congr 2
    dsimp only
    omega

theorem lines_ofText (t : Text) : lines 1 0 (ofText t) = Line.ofText t :=
  lines_ofPieces 1 0 (Line.split t)

theorem lines_append (number start : Nat) (rows rows' : List Row) :
    lines number start (rows ++ rows') =
      lines number start rows ++
        lines (number + rows.length) (start + (flat rows).size) rows' := by
  induction rows generalizing number start with
  | nil => rfl
  | cons row rows ih =>
    simp only [List.cons_append, lines, ih, List.length_cons, flat_cons, Text.size_append,
      Nat.add_assoc, Nat.add_comm 1]

@[simp] theorem length_lines (number start : Nat) (rows : List Row) :
    (lines number start rows).length = rows.length := by
  induction rows generalizing number start with
  | nil => rfl
  | cons row rows ih => rw [lines, List.length_cons, ih, List.length_cons]

theorem map_text_lines (number start : Nat) (rows : List Row) :
    (lines number start rows).map Line.text = rows.map Row.text := by
  induction rows generalizing number start with
  | nil => rfl
  | cons row rows ih => rw [lines, List.map_cons, ih, List.map_cons]

theorem exists_row_of_mem_lines {l : Line} (member : l ∈ lines number start rows) :
    ∃ above row below, rows = above ++ row :: below ∧
      l = ⟨number + above.length, start + (flat above).size,
        start + (flat above).size + row.text.size, row.text⟩ := by
  induction rows generalizing number start with
  | nil => cases member
  | cons row rows ih =>
    rcases List.mem_cons.mp member with rfl | member
    · exact ⟨[], row, rows, rfl, rfl⟩
    · obtain ⟨above, found, below, rfl, line⟩ := ih member
      refine ⟨row :: above, found, below, rfl, ?_⟩
      rw [line]
      simp only [List.length_cons, flat_cons, Text.size_append, Nat.add_assoc, Nat.add_comm 1]

theorem bounds_of_mem_lines {l : Line} (member : l ∈ lines number start rows) :
    number ≤ l.number ∧ l.number < number + rows.length ∧ start ≤ l.start ∧
      l.start ≤ start + (flat rows).size := by
  obtain ⟨above, row, below, rfl, rfl⟩ := exists_row_of_mem_lines member
  rw [List.length_append, List.length_cons, flat_append, Text.size_append]
  dsimp only
  omega

theorem filter_lines {first last : Nat} {own : List Row} (start : first = above.length + 1)
    (stop : last + 1 = first + own.length) :
    (lines 1 0 (above ++ own ++ below)).filter (fun l => first ≤ l.number && l.number ≤ last) =
      lines first (flat above).size own := by
  have outside : ∀ l ∈ lines 1 0 above,
      ¬(decide (first ≤ l.number) && decide (l.number ≤ last)) = true := by
    intro l member
    have bounds := bounds_of_mem_lines member
    simp only [Bool.and_eq_true, decide_eq_true_eq]
    omega
  have inside : ∀ l ∈ lines first (flat above).size own,
      (decide (first ≤ l.number) && decide (l.number ≤ last)) = true := by
    intro l member
    have bounds := bounds_of_mem_lines member
    simp only [Bool.and_eq_true, decide_eq_true_eq]
    omega
  have beyond : ∀ l ∈ lines (first + own.length) (0 + (flat (above ++ own)).size) below,
      ¬(decide (first ≤ l.number) && decide (l.number ≤ last)) = true := by
    intro l member
    have bounds := bounds_of_mem_lines member
    simp only [Bool.and_eq_true, decide_eq_true_eq]
    omega
  have numbers : 1 + (above ++ own).length = first + own.length := by
    rw [List.length_append]
    omega
  rw [lines_append 1 0 (above ++ own), lines_append 1 0 above, numbers, List.filter_append,
    List.filter_append, List.filter_eq_nil_iff.mpr outside, List.filter_eq_nil_iff.mpr beyond,
    Nat.add_comm 1, ← start, Nat.zero_add, List.filter_eq_self.mpr inside, List.nil_append,
    List.append_nil]

end Row

namespace Document

open Row

variable {t : Text} {lineBreak : LineBreak} {row : Row} {above below : List Row} {x : Nat}

def lineBelow (above : List Row) (row : Row) : Line :=
  ⟨above.length + 1, (flat above).size, (flat above).size + row.text.size, row.text⟩

theorem lines_of_rows (parts : Row.ofText t = above ++ row :: below) :
    (ofText t lineBreak).lines = Row.lines 1 0 above ++ lineBelow above row ::
      Row.lines (above.length + 2) ((flat above).size + row.text.size + row.ending.size) below := by
  show Line.ofText t = _
  rw [← lines_ofText, parts, lines_append, Row.lines, Nat.zero_add, lineBelow, Nat.add_comm 1]

theorem line_of_rows (parts : Row.ofText t = above ++ row :: below) :
    (ofText t lineBreak).line (above.length + 1) = lineBelow above row := by
  have place : max 1 (min (above.length + 1) (Row.ofText t).length) - 1 = above.length := by
    rw [parts, List.length_append, List.length_cons]
    omega
  have length : (ofText t lineBreak).lines.length = (Row.ofText t).length := by
    show (Line.ofText t).length = _
    rw [← lines_ofText, length_lines]
  rw [line, length, place, lines_of_rows parts,
    List.getElem?_append_right (Nat.le_of_eq (length_lines _ _ _)), length_lines, Nat.sub_self,
    List.getElem?_cons_zero, Option.getD_some]

/-- An offset is on the row between `above` and `below` if the next one starts behind it. -/
def OnRow (above : List Row) (row : Row) (below : List Row) (x : Nat) : Prop :=
  (flat above).size ≤ x ∧ (below = [] ∨ x < (flat above).size + row.text.size + row.ending.size)

theorem lineAt_of_rows (parts : Row.ofText t = above ++ row :: below)
    (on : OnRow above row below x) (inside : x ≤ t.size) :
    (ofText t lineBreak).lineAt x = lineBelow above row := by
  obtain ⟨low, high⟩ := on
  have clamped : min x (ofText t lineBreak).size = x := Nat.min_eq_left inside
  have before : ∀ l ∈ Row.lines 1 0 above, decide (l.start ≤ x) = true := by
    intro l member
    have bounds := bounds_of_mem_lines member
    exact decide_eq_true (by omega)
  have here : decide ((lineBelow above row).start ≤ x) = true := decide_eq_true low
  have stops : (Row.lines (above.length + 2)
      ((flat above).size + row.text.size + row.ending.size) below).takeWhile
        (fun l => decide (l.start ≤ x)) = [] := by
    cases below with
    | nil => rfl
    | cons next below =>
      have behind := high.resolve_left (by simp)
      rw [Row.lines, List.takeWhile_cons_of_neg]
      simpa using behind
  rw [lineAt, clamped, lines_of_rows parts, List.takeWhile_append_of_pos before,
    List.takeWhile_cons_of_pos (p := fun l : Line => decide (l.start ≤ x)) here, stops,
    List.getLast?_concat, Option.getD_some]

theorem exists_onRow {rows : List Row} (chained : Chained rows) (inside : x ≤ (flat rows).size) :
    ∃ above row below, rows = above ++ row :: below ∧ OnRow above row below x := by
  induction rows generalizing x with
  | nil => exact chained.elim
  | cons row rows ih =>
    cases rows with
    | nil => exact ⟨[], row, [], rfl, Nat.zero_le _, Or.inl rfl⟩
    | cons next rest =>
      by_cases here : x < row.text.size + row.ending.size
      · exact ⟨[], row, next :: rest, rfl, Nat.zero_le _, Or.inr (by simpa using here)⟩
      · rw [flat_cons, Text.size_append, Text.size_append] at inside
        obtain ⟨above, found, below, parts, low, high⟩ :=
          ih chained.2 (x := x - (row.text.size + row.ending.size)) (by omega)
        refine ⟨row :: above, found, below, by rw [parts, List.cons_append], ?_, ?_⟩
        · rw [flat_cons, Text.size_append, Text.size_append]
          omega
        · rw [flat_cons, Text.size_append, Text.size_append]
          exact high.imp_right fun behind => by omega

/-- An offset of the text is on a row. -/
theorem exists_row (lineBreak : LineBreak) (inside : x ≤ t.size) : ∃ above row below,
    Row.ofText t = above ++ row :: below ∧ OnRow above row below x ∧
      (ofText t lineBreak).lineAt x = lineBelow above row := by
  have within : x ≤ (flat (Row.ofText t)).size := by
    rw [flat_ofText]
    exact inside
  obtain ⟨above, row, below, parts, on⟩ := exists_onRow (chained_ofText t) within
  exact ⟨above, row, below, parts, on, lineAt_of_rows parts on inside⟩

theorem number_lineAt_mono {y : Nat} (order : x ≤ y) (inside : y ≤ t.size) :
    ((ofText t lineBreak).lineAt x).number ≤ ((ofText t lineBreak).lineAt y).number := by
  obtain ⟨above, row, below, parts, first, line⟩ :=
    exists_row lineBreak (Nat.le_trans order inside)
  obtain ⟨above', row', below', parts', second, line'⟩ := exists_row lineBreak inside
  rw [line, line', lineBelow, lineBelow]
  refine Nat.succ_le_succ (Nat.le_of_not_lt fun shorter => ?_)
  rw [parts] at parts'
  rcases List.append_eq_append_iff.mp parts' with ⟨more, rfl, _⟩ | ⟨more, rfl, rest⟩
  · rw [List.length_append] at shorter
    omega
  · cases more with
    | nil =>
      rw [List.append_nil] at shorter
      omega
    | cons next more =>
      obtain ⟨rfl, rfl⟩ := List.cons.inj rest
      have ended := second.2.resolve_left (by simp)
      have low := first.1
      simp only [flat_append, flat_cons, Text.size_append] at low
      omega

end Document

end MarkdownEditing

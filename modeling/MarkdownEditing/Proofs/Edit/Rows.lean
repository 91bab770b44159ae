import MarkdownEditing.Proofs.Edit.Coherent
import MarkdownEditing.Proofs.Text.Rows

namespace MarkdownEditing

open Row

namespace EditState

variable {s : EditState} {row : Row} {above below own : List Row} {x y : Nat}

def rows (s : EditState) : List Row := Row.ofText s.text

theorem Coherent.lines_rows (coherent : s.Coherent) : s.doc.lines = Row.lines 1 0 s.rows := by
  rw [coherent.doc]
  exact (lines_ofText s.text).symm

theorem Coherent.number_lineAt (coherent : s.Coherent) (inside : x ≤ s.doc.size) :
    1 ≤ (s.doc.lineAt x).number ∧ (s.doc.lineAt x).number ≤ s.rows.length := by
  obtain ⟨above, row, below, parts, _, line⟩ :=
    Document.exists_row (t := s.text) s.doc.lineBreak inside
  rw [coherent.lineAt, line, rows, parts, Document.lineBelow, List.length_append, List.length_cons]
  dsimp only
  omega

theorem Coherent.number_lineAt_mono (coherent : s.Coherent) (order : x ≤ y)
    (inside : y ≤ s.doc.size) : (s.doc.lineAt x).number ≤ (s.doc.lineAt y).number := by
  rw [coherent.lineAt, coherent.lineAt]
  exact Document.number_lineAt_mono order inside

theorem lineBreak_cases (s : EditState) : s.lineBreak = ['\n'] ∨ s.lineBreak = ['\r', '\n'] := by
  rw [lineBreak]
  cases s.doc.lineBreak with
  | lf => exact Or.inl rfl
  | crlf => exact Or.inr rfl

theorem lineBreak_ne_nil (s : EditState) : s.lineBreak ≠ [] := by
  rcases s.lineBreak_cases with feed | both
  · exact feed ▸ List.cons_ne_nil _ _
  · exact both ▸ List.cons_ne_nil _ _

/-- The rows make up the text. The text gives them back, but for carriage returns at their ends that
go to the line feeds. -/
structure Holds (s : EditState) (rows : List Row) : Prop where
  text : s.text = flat rows
  chained : Chained rows

theorem holds_rows (rows : s.rows = own) : s.Holds own := by
  rw [← rows]
  exact ⟨(flat_ofText s.text).symm, chained_ofText s.text⟩

theorem Holds.ofText_eq (holds : s.Holds (above ++ row :: below)) :
    Row.ofText s.text = above.map settle ++ row.settle :: below.map settle := by
  rw [holds.text, ofText_flat holds.chained, List.map_append, List.map_cons]

theorem Coherent.line_of_holds (coherent : s.Coherent)
    (holds : s.Holds (above ++ row :: below)) : s.doc.line (above.length + 1) =
      ⟨above.length + 1, (flat above).size, (flat above).size + row.settle.text.size,
        row.settle.text⟩ := by
  have line : (Document.ofText s.text s.doc.lineBreak).line _ = _ :=
    Document.line_of_rows holds.ofText_eq
  rw [List.length_map, Document.lineBelow, List.length_map, flat_map_settle] at line
  rw [coherent.doc]
  exact line

/-- An offset of the text that is on a row has the number of that row's line. -/
theorem Coherent.number_onRow (coherent : s.Coherent)
    (holds : s.Holds (above ++ row :: below)) (on : Document.OnRow above row below x)
    (inside : x ≤ s.doc.size) : (s.doc.lineAt x).number = above.length + 1 := by
  have whole := congrArg Text.size row.flat_settle
  rw [Text.size_append, Text.size_append] at whole
  have settled : Document.OnRow (above.map settle) row.settle (below.map settle) x := by
    rw [Document.OnRow, flat_map_settle, List.map_eq_nil_iff]
    exact ⟨on.1, on.2.imp_right fun before => by omega⟩
  rw [coherent.lineAt, Document.lineAt_of_rows holds.ofText_eq settled inside, Document.lineBelow,
    List.length_map]

theorem Coherent.onRow_of_number (coherent : s.Coherent)
    (rows : s.rows = above ++ row :: below) (inside : x ≤ s.doc.size)
    (number : (s.doc.lineAt x).number = above.length + 1) : Document.OnRow above row below x := by
  obtain ⟨above', row', below', parts, on, line⟩ :=
    Document.exists_row (t := s.text) s.doc.lineBreak inside
  rw [coherent.lineAt, line, Document.lineBelow, Nat.add_right_cancel_iff] at number
  obtain ⟨same, rest⟩ := List.append_inj (rows.symm.trans parts) number.symm
  obtain ⟨same_row, same_below⟩ := List.cons.inj rest
  rwa [same, same_row, same_below]

theorem Holds.text_size (holds : s.Holds (above ++ row :: below)) :
    s.text.size = (flat above).size + row.text.size + row.ending.size + (flat below).size := by
  rw [holds.text, flat_append, flat_cons]
  simp only [Text.size_append, Nat.add_assoc]

end EditState

theorem Range.Inside.stop_le {r : Range} {size : Nat} (inside : r.Inside size) : r.stop ≤ size :=
  Nat.max_le.mpr inside

end MarkdownEditing

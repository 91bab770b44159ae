import MarkdownEditing.Text.Basic

namespace MarkdownEditing

namespace Text

/-- The column after character `c` when it starts at column `col`, with tab stops every `tab`
columns. -/
def stepColumn (tab col : Nat) (c : Char) : Nat :=
  if c = '\t' then col + tab - col % tab else col + 1

def advance (tab col : Nat) (t : Text) : Nat := t.foldl (stepColumn tab) col

/-- The column of offset `n`. Tab stops closer than one column apart count as one apart. -/
def columnAt (t : Text) (tab n : Nat) : Nat := advance (max tab 1) 0 (t.takeBytes n)

theorem advance_append (tab col : Nat) (a b : Text) :
    advance tab col (a ++ b) = advance tab (advance tab col a) b := by
  simp [advance, List.foldl_append]

end Text

end MarkdownEditing

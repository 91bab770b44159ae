import MarkdownEditing.Document
import MarkdownEditing.Text.Blank
import MarkdownEditing.Text.Digit

namespace MarkdownEditing

namespace Text

def toNat? (t : Text) : Option Nat :=
  if t ≠ [] ∧ t.all Char.isDigit then
    some (t.foldl (fun n c => 10 * n + (c.toNat - '0'.toNat)) 0)
  else none

end Text

/-- The number of an ordered list item. `indent` is the size of the white space before the digits,
`digitsStop` the size of both. -/
structure ItemNumber where
  indent : Nat
  digitsStop : Nat
  value : Nat
  deriving DecidableEq, Repr

namespace ItemNumber

/-- The bytes of an item that hold its number: nine digits and the delimiter. -/
def window : Nat := 10

def read? (t : Text) : Option ItemNumber :=
  let indent : Text := t.takeWhile isWhite
  let digits : Text := (t.dropWhile isWhite).takeWhile isDigit
  match (t.dropWhile isWhite).dropWhile isDigit with
  | c :: _ =>
    if c = '.' ∨ c = ')' then
      digits.toNat?.map fun value => ⟨indent.size, indent.size + digits.size, value⟩
    else none
  | [] => none

def ofItem? (d : Document) (start : Nat) : Option ItemNumber :=
  read? (d.slice start (start + window))

end ItemNumber

end MarkdownEditing

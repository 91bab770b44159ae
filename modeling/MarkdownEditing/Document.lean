import MarkdownEditing.Text.Utf8
import MarkdownEditing.Settings.Basic

namespace MarkdownEditing

structure Line where
  number : Nat
  start : Nat
  stop : Nat
  text : Text
  deriving DecidableEq, Repr, Inhabited

namespace Line

def split : Text → List Text
  | [] => [[]]
  | c :: t =>
    if c = '\n' then [] :: split t
    else
      match split t with
      | [] => [[c]]
      | piece :: pieces => (c :: piece) :: pieces

def dropReturn (piece : Text) : Text := if piece.getLast? = some '\r' then piece.dropLast else piece

def numbered (number start : Nat) : List Text → List Line
  | [] => []
  | [last] => [⟨number, start, start + last.size, last⟩]
  | piece :: pieces =>
    ⟨number, start, start + (dropReturn piece).size, dropReturn piece⟩ ::
      numbered (number + 1) (start + piece.size + 1) pieces

def ofText (t : Text) : List Line := numbered 1 0 (split t)

end Line

/-- A text, its lines, and the line break that editing inserts into it. Lines end at line feeds, and a
carriage return directly before the line feed belongs to the line break. -/
structure Document where
  text : Text
  lines : List Line
  lineBreak : LineBreak
  deriving Repr

namespace Document

def ofText (t : Text) (lineBreak : LineBreak) : Document := ⟨t, Line.ofText t, lineBreak⟩

def size (d : Document) : Nat := d.text.size

instance : BEq Document := ⟨fun a b => a.text == b.text && a.lineBreak == b.lineBreak⟩

def line (d : Document) (number : Nat) : Line :=
  (d.lines[max 1 (min number d.lines.length) - 1]?).getD default

/-- The line an offset lies on: the last one that starts at or before it. -/
def lineAt (d : Document) (offset : Nat) : Line :=
  ((d.lines.takeWhile fun line => line.start ≤ min offset d.size).getLast?).getD default

def slice (d : Document) (start stop : Nat) : Text := d.text.slice start stop

end Document

end MarkdownEditing

import MarkdownEditing.Text.Basic

namespace MarkdownEditing

def isWhite (c : Char) : Bool :=
  let n := c.toNat
  (0x09 ≤ n && n ≤ 0x0D) || n == 0x20 || n == 0x85 || n == 0xA0 || n == 0x1680 ||
    (0x2000 ≤ n && n ≤ 0x200A) || n == 0x2028 || n == 0x2029 || n == 0x202F || n == 0x205F ||
    n == 0x3000

def isIndent (c : Char) : Bool := c == ' ' || c == '\t'

namespace Text

def isBlank (t : Text) : Bool := t.all isWhite

def trimStart (t : Text) : Text := t.dropWhile isWhite

def trimEnd : Text → Text
  | [] => []
  | c :: t =>
    match trimEnd t with
    | [] => if isWhite c then [] else [c]
    | rest => c :: rest

def spaces (n : Nat) : Text := List.replicate n ' '

def leadingSpaces (t : Text) : Nat := (t.takeWhile (· == ' ')).length

end Text

theorem isWhite_of_isIndent (c : Char) (indent : isIndent c = true) : isWhite c = true := by
  simp only [isIndent, Bool.or_eq_true, beq_iff_eq] at indent
  rcases indent with rfl | rfl <;> rfl

end MarkdownEditing

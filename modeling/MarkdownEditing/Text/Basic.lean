namespace MarkdownEditing

/-- Text is a list of characters; offsets into it count the bytes of its UTF-8 form. -/
abbrev Text := List Char

namespace Text

def size : Text → Nat
  | [] => 0
  | c :: t => c.utf8Size + size t

def takeBytes : Text → Nat → Text
  | [], _ => []
  | c :: t, n => if c.utf8Size ≤ n then c :: takeBytes t (n - c.utf8Size) else []

/-- The characters from the one that offset `n` falls into. -/
def dropBytes : Text → Nat → Text
  | [], _ => []
  | c :: t, n => if c.utf8Size ≤ n then dropBytes t (n - c.utf8Size) else c :: t

def floor (t : Text) (n : Nat) : Nat := (t.takeBytes n).size

def isBoundary (t : Text) (n : Nat) : Bool := t.floor n == n

/-- The text between two offsets, both rounded down to character boundaries. -/
def slice (t : Text) (start stop : Nat) : Text := (t.takeBytes stop).dropBytes start

/-- The text between two offsets, refused when one of them is no character boundary. -/
def cut? (t : Text) (start stop : Nat) : Option Text :=
  if t.isBoundary start && t.isBoundary stop then some (t.slice start stop) else none

/-- The offset `count` characters before offset `pos`, or the start of the text. At least one
character is stepped over. -/
def charsBefore (t : Text) (pos count : Nat) : Nat :=
  let head := t.takeBytes pos
  size (head.take (head.length - max count 1))

def ofNat (n : Nat) : Text := Nat.toDigits 10 n

def join (separator : Text) (parts : List Text) : Text := (parts.intersperse separator).flatten

theorem size_append (a b : Text) : size (a ++ b) = size a + size b := by
  induction a with
  | nil => simp [size]
  | cons c t ih => simp [size, ih, Nat.add_assoc]

theorem takeBytes_append_dropBytes (t : Text) (n : Nat) : takeBytes t n ++ dropBytes t n = t := by
  fun_induction takeBytes t n with
  | case1 => simp [dropBytes]
  | case2 c t n fits ih => simp [dropBytes, fits, ih]
  | case3 c t n fits => simp [dropBytes, fits]

theorem floor_le (t : Text) (n : Nat) : floor t n ≤ n := by
  unfold floor
  fun_induction takeBytes t n with
  | case1 => simp [size]
  | case2 c t n fits ih => simp only [size]; omega
  | case3 c t n fits => simp [size]

theorem floor_le_size (t : Text) (n : Nat) : floor t n ≤ size t := by
  have parts := congrArg size (takeBytes_append_dropBytes t n)
  rw [size_append] at parts
  unfold floor
  omega

theorem takeBytes_size (t : Text) : takeBytes t (size t) = t := by
  induction t with
  | nil => rfl
  | cons c t ih => simp [takeBytes, size, ih]

end Text

end MarkdownEditing

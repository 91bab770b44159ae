import MarkdownEditing.Syntax.Kind
import MarkdownEditing.Text.Blank

namespace MarkdownEditing

structure Token where
  kind : Kind
  text : Text
  deriving DecidableEq, Repr, Inhabited

def markKind? : Char → Option Kind
  | '>' => some .gt
  | '-' => some .dash
  | '*' => some .star
  | '+' => some .plus
  | '_' => some .underscore
  | '\x60' => some .backtick
  | '~' => some .tilde
  | ')' => some .rparen
  | '#' => some .hash
  | _ => none

def isWordChar (c : Char) : Bool := !isWhite c && (markKind? c).isNone

namespace Token

/-- The first token of the text `c :: t`, and the text after it. White space that is neither
indentation nor a line break is a text token of one character. -/
def first (c : Char) (t : Text) : Token × Text :=
  if isIndent c then (⟨.whitespace, c :: t.takeWhile isIndent⟩, t.dropWhile isIndent)
  else if c = '\n' then (⟨.newline, [c]⟩, t)
  else if c = '\r' ∧ t.head? = some '\n' then (⟨.newline, [c, '\n']⟩, t.tail)
  else
    match markKind? c with
    | some kind => (⟨kind, [c]⟩, t)
    | none =>
      if isWhite c then (⟨.text, [c]⟩, t)
      else (⟨.text, c :: t.takeWhile isWordChar⟩, t.dropWhile isWordChar)

theorem first_append (c : Char) (t : Text) : (first c t).1.text ++ (first c t).2 = c :: t := by
  unfold first
  split
  · simp
  split
  · simp
  split
  · rename_i crlf
    cases t with
    | nil => simp at crlf
    | cons d t => simp at crlf ⊢; exact crlf.2.symm
  split
  · simp
  split <;> simp

theorem first_ne_nil (c : Char) (t : Text) : (first c t).1.text ≠ [] := by
  unfold first
  split <;> try simp
  split <;> try simp
  split <;> try simp
  split <;> try simp
  split <;> simp

theorem length_rest (c : Char) (t : Text) : (first c t).2.length ≤ t.length := by
  have parts := congrArg List.length (first_append c t)
  have some_text := List.length_pos_iff.mpr (first_ne_nil c t)
  simp only [List.length_append, List.length_cons] at parts
  omega

/-- The tokens of a text: runs of spaces and tabs, line breaks, single mark characters, and words of
anything else. -/
def scan : Text → List Token
  | [] => []
  | c :: t => (first c t).1 :: scan (first c t).2
termination_by t => t.length
decreasing_by
  have := length_rest c t
  simp only [List.length_cons]
  omega

def join (tokens : List Token) : Text := tokens.flatMap Token.text

@[simp] theorem join_nil : join [] = [] := rfl

@[simp] theorem join_cons (t : Token) (ts : List Token) : join (t :: ts) = t.text ++ join ts := by
  simp [join]

@[simp] theorem join_append (a b : List Token) : join (a ++ b) = join a ++ join b := by
  simp [join]

theorem join_scan (t : Text) : join (scan t) = t := by
  fun_induction scan t with
  | case1 => rfl
  | case2 c t ih => rw [join_cons, ih, first_append]

end Token

end MarkdownEditing

import MarkdownEditing.Toggle.Lines
import MarkdownEditing.Text.Blank

namespace MarkdownEditing

inductive LeadingMark
  | heading
  | quote
  deriving DecidableEq, Repr

namespace LeadingMark

def char : LeadingMark → Char
  | heading => '#'
  | quote => '>'

def run? (mark : LeadingMark) (t : Text) : Option (Nat × Nat) :=
  let marks := (t.takeWhile (· == mark.char)).length
  let spaces := Text.leadingSpaces (t.drop marks)
  if 1 ≤ marks ∧ 1 ≤ spaces then some (marks, spaces) else none

def marks (mark : LeadingMark) (level : Nat) : Text := List.replicate level mark.char

def atLevel (mark : LeadingMark) (level : Nat) (line : Line) : Bool :=
  match mark.run? line.text with
  | some (n, _) => n == level
  | none => false

/-- The change that gives a line the marks of a level, or takes them away if `remove`. An empty line
gets marks only when it is `alone`. -/
def changeLine (mark : LeadingMark) (level : Nat) (remove alone : Bool) (line : Line) :
    Option Change :=
  match mark.run? line.text with
  | some (n, spaces) =>
    if n = level then
      if remove then some (Change.delete line.start (line.start + n + spaces)) else none
    else some ⟨line.start, line.start + n, mark.marks level⟩
  | none =>
    if line.text ≠ [] ∨ alone then some (Change.insertAt line.start (mark.marks level ++ [' ']))
    else none

/-- Give every line that the selection touches the marks of a level, or take them away if all of
them have exactly these. On a single empty line the caret goes after the new marks. -/
def toggle (mark : LeadingMark) (level : Nat) (s : EditState) : Transaction :=
  let lines := s.coveredLines
  let remove := lines.all (mark.atLevel level)
  let alone := lines.length == 1
  let changes := lines.filterMap (mark.changeLine level remove alone)
  let caret :=
    match lines with
    | [line] => if line.text = [] then some (Selection.caret (line.start + level + 1)) else none
    | _ => none
  match ChangeSet.ofChanges changes s.doc.size with
  | .ok set => ⟨set, caret⟩
  | .error _ => ⟨ChangeSet.empty s.doc.size, none⟩

end LeadingMark

end MarkdownEditing

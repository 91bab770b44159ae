import MarkdownEditing.Edit.ByRange
import MarkdownEditing.Text.Blank

namespace MarkdownEditing

def replaceRanges (t : Text) (offset : Option Nat) (s : EditState) : Except Decline Transaction :=
  let into := min (offset.getD t.size) t.size
  Transaction.ofEdits s (s.selection.ranges.map fun r =>
    ⟨[⟨r.start, r.stop, t⟩], Range.caret (r.start + into)⟩)

def insertBlock (marks : Text) (s : EditState) : Except Decline Transaction :=
  replaceRanges (marks ++ s.lineBreak ++ s.lineBreak ++ marks)
    (some (marks.size + s.lineBreak.size)) s

def trimLine? (line : Line) : Option Change :=
  let kept := Text.size line.text.trimEnd
  if kept < line.text.size then some (Change.delete (line.start + kept) line.stop) else none

def caretAtEnd (s : EditState) (line : Line) : Bool :=
  s.selection.ranges.any fun r => r.isCaret && r.head == line.stop

/-- Add a missing final line break if `final`, and remove white space at the ends of lines if
`trim`. Unless the user asked for it, a line with a caret at its end keeps its white space. -/
def formatContent (final trim userInitiated : Bool) (s : EditState) : Transaction :=
  let breakMissing := final && s.text ≠ [] && !s.lineBreak.isSuffixOf s.text
  let added := if breakMissing then [Change.insertAt s.doc.size s.lineBreak] else []
  let lines :=
    if trim then s.doc.lines.filter fun line => userInitiated || !caretAtEnd s line else []
  match ChangeSet.ofChanges (added ++ lines.filterMap trimLine?) s.doc.size with
  | .ok set => ⟨set, none⟩
  | .error _ => ⟨ChangeSet.empty s.doc.size, none⟩

end MarkdownEditing

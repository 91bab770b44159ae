import MarkdownEditing.Edit.ByRange

namespace MarkdownEditing

namespace EditState

def lineSpan (s : EditState) (r : Range) : Nat × Nat :=
  ((s.doc.lineAt r.start).number, (s.doc.lineAt r.stop).number)

def coveredLines (s : EditState) : List Line :=
  let spans := s.selection.ranges.map s.lineSpan
  s.doc.lines.filter fun line => spans.any fun span => span.1 ≤ line.number && line.number ≤ span.2

end EditState

end MarkdownEditing

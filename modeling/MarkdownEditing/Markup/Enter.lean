import MarkdownEditing.Markup.Frame
import MarkdownEditing.Markup.Renumber
import MarkdownEditing.Edit.ByRange

namespace MarkdownEditing

namespace Enter

def isMarkupChar (c : Char) : Bool :=
  isWhite c || isDigit c || c == '.' || c == ')' || c == '-' || c == '+' || c == '*' || c == '>'

def quoteTail? (t : Text) : Option Nat :=
  let tail := t.reverse.takeWhile (· != '>')
  if tail.length < t.length ∧ tail.all isWhite then
    some (Text.size (t.take (t.length - tail.length - 1)))
  else none

/-- Where a caret at `pos` stands: its line, and the frames around it that begin on or before its
column, from the innermost out. -/
structure Site where
  pos : Nat
  line : Line
  inner : Frame
  outer : List Frame

namespace Site

def column (x : Site) : Nat := x.pos - x.line.start

def isEmptyLine (x : Site) : Bool := (x.line.text.dropBytes x.inner.stop).isBlank

def inFirstItem (x : Site) : Bool :=
  match x.inner.node.children.find? (·.isNode) with
  | some first => x.pos ≤ first.stop
  | none => false

/-- The line above has nothing on it but white space and quote marks. -/
def afterBlank (x : Site) (d : Document) : Bool :=
  0 < x.line.start && (d.lineAt (x.line.start - 1)).text.all fun c => isWhite c || c == '>'

/-- Leave the empty item `item` for the next level out, which gets a new marker if it is an item
too. -/
def leaveItem (x : Site) (d : Document) (item : Place) : RangeEdit :=
  let next := x.outer.head?
  let (start, insert) :=
    match next with
    | some next =>
      if next.item.isSome then (x.line.start + next.start, next.marker d 1)
      else (x.line.start + next.stop, [])
    | none => (x.line.start, [])
  let start := min start x.pos
  let closing := if x.inner.isOrdered then renumber item d (-2) else []
  let opening :=
    match next with
    | some next =>
      match next.item, next.isOrdered with
      | some nextItem, true => renumber nextItem d 0
      | _, _ => []
    | none => []
  ⟨⟨start, x.pos, insert⟩ :: (closing ++ opening), Range.caret (start + Text.size insert)⟩

/-- Keep the list going with a blank line in place of a new marker. -/
def blankLine (x : Site) (lineBreak : Text) : RangeEdit :=
  let insert : Text := lineBreak ++ x.line.text.takeWhile isWhite
  ⟨[⟨x.line.start, x.line.stop, insert⟩],
    Range.caret (x.pos + insert.size - (x.line.stop - x.line.start))⟩

/-- End a quote whose last two lines are empty, if the line above ends with this quote's mark. -/
def closeQuote? (x : Site) (d : Document) : Option (Except Decline RangeEdit) :=
  let above := d.lineAt (x.line.start - 1)
  if quoteTail? above.text = some x.inner.start then
    let changes := [Change.delete (above.start + x.inner.start) above.stop,
      Change.delete (x.line.start + x.inner.start) x.line.stop]
    some <| match ChangeSet.ofChanges changes d.size with
      | .ok set => .ok ⟨set.changes, (Range.caret x.pos).map set⟩
      | .error _ => .error .conflictingChanges
  else none

def isContinued (x : Site) : Bool :=
  match x.inner.item with
  | some item => item.start < x.line.start
  | none => false

/-- The markup of the frames on a new line, outermost first, after what `lead` holds already. Each
container is padded to the column of the next one on the caret's line. The innermost gets a new
marker unless `continued`. -/
def leadOf (s : EditState) (line : Line) (continued : Bool) (lead : Text) : List Frame → Text
  | [] => lead
  | [inner] => lead ++ if continued then inner.blank none true else inner.marker s.doc 1
  | frame :: next :: frames =>
    let width := line.text.columnAt s.settings.tabSize next.start
    leadOf s line continued (lead ++ frame.blank (some (width - lead.size)) true) (next :: frames)

/-- The markup that the new line starts with. A line inside an item gets some only when it begins
with as much markup as the item's first line. -/
def lead (x : Site) (s : EditState) : Text :=
  let markup : Text := x.line.text.takeWhile isMarkupChar
  if ¬x.isContinued ∨ x.inner.stop ≤ markup.size then
    leadOf s x.line x.isContinued [] (x.inner :: x.outer).reverse
  else []

def split (x : Site) (s : EditState) : Except Refusal RangeEdit :=
  if x.line.text.isBoundary x.column then
    let start := x.line.start + (Text.trimEnd (x.line.text.takeBytes x.column)).size
    let insert : Text := s.lineBreak ++ (x.lead s).normalizeIndent s.settings
    let counted :=
      match x.inner.item, x.inner.isOrdered with
      | some item, true => renumber item s.doc 0
      | _, _ => []
    .ok ⟨counted ++ [⟨start, x.pos, insert⟩], Range.caret (start + insert.size)⟩
  else .error .splitsCharacter

end Site

def site (s : EditState) (r : Range) : Except Decline Site :=
  if ¬r.isCaret then .error .notCaret
  else if ¬s.isMarkdownAt r.head then .error .notMarkdown
  else
    let line := s.doc.lineAt r.head
    let column := r.head - line.start
    let frames := (Frame.around (s.tree.resolve s.doc r.head) s.doc).reverse
    match frames.dropWhile (column < ·.start) with
    | [] => .error .noContext
    | inner :: outer =>
      if column < inner.markerStop then .error .insideMarkup else .ok ⟨r.head, line, inner, outer⟩

/-- Split the line at a site and repeat the markup on the new line. On an item that is still empty the
markup goes away instead, one level at a time, and a second empty line of a quote ends it. -/
def editAt (s : EditState) (x : Site) : Except Refusal RangeEdit :=
  match x.inner.item, x.isEmptyLine with
  | some item, true =>
    if x.inFirstItem || x.afterBlank s.doc then .ok (x.leaveItem s.doc item)
    else .ok (x.blankLine s.lineBreak)
  | _, empty =>
    if x.inner.isQuote && empty && 0 < x.line.start then
      match x.closeQuote? s.doc with
      | some edit => edit.mapError .declined
      | none => x.split s
    else x.split s

def edit (s : EditState) (r : Range) : Except Refusal RangeEdit :=
  (site s r).mapError .declined >>= editAt s

def run (s : EditState) : Except Refusal Transaction := Transaction.byRange s (edit s)

end Enter

end MarkdownEditing

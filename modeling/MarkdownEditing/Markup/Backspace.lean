import MarkdownEditing.Markup.Frame
import MarkdownEditing.Edit.ByRange

namespace MarkdownEditing

namespace Backspace

def isContainerMark (k : Kind) : Bool := k == .quoteMark || k == .listMark

/-- Walk backwards from offset `scan` in a node: over container marks, and into the last item of a
list that ends there. -/
def walkBack (node : Place) (scan : Nat) : Place :=
  match _found : node.childBefore? scan with
  | none => node
  | some child =>
    if child.isNode then
      if child.kind.isList then
        match _last : child.children.reverse.find? (·.isNode) with
        | some item => walkBack item item.stop
        | none => node
      else node
    else if isContainerMark child.kind then walkBack node child.start
    else node
termination_by (sizeOf node.tree, scan)
decreasing_by
  · have inList := Place.children_smaller (List.mem_reverse.mp (List.mem_of_find?_eq_some _last))
    have inNode := Place.children_smaller (Place.childBefore?_mem _found)
    exact Prod.Lex.left _ _ (Nat.lt_trans inList inNode)
  · exact Prod.Lex.right _ (Place.childBefore?_start_lt _found)

/-- The node whose containers count when deleting at `pos`: the one a caret there sits in, and from
there backwards over marks and into lists, so that the line of a nested item belongs to that item.
-/
def contextNode? (s : EditState) (pos : Nat) : Option Place :=
  let place := s.tree.resolve s.doc pos
  if place.isNode then some (walkBack place pos)
  else
    place.parent?.map fun node =>
      walkBack node (if isContainerMark place.kind then place.start else pos)

def deletePair (s : EditState) (pos : Nat) : RangeEdit :=
  let start := max (s.text.charsBefore pos 2) (s.doc.lineAt pos).start
  ⟨[Change.delete start pos], Range.caret start⟩

/-- Put blanks of the same width in place of a list marker that begins at `start`. -/
def blankMarker (s : EditState) (line : Line) (inner : Frame) (start : Nat) : RangeEdit :=
  let tab := s.settings.tabSize
  let width := line.text.columnAt tab inner.stop - line.text.columnAt tab inner.start
  let blank := inner.blank (some width) true
  let insert := if start = line.start then blank.normalizeIndent s.settings else blank
  ⟨[⟨start, line.start + inner.stop, insert⟩], Range.caret (start + insert.size)⟩

def deleteMarker? (s : EditState) (line : Line) (inner : Frame) (pos : Nat) : Option RangeEdit :=
  let onMarkerLine : Bool :=
    match inner.item with
    | some item => line.start ≤ item.start
    | none => true
  if onMarkerLine ∨ (line.text.takeBytes inner.stop).isBlank then
    let start := line.start + inner.start
    if inner.item.isSome ∧ ¬(line.text.slice inner.start inner.stop).isBlank then
      some (blankMarker s line inner start)
    else if start < pos then some (deletePair s pos)
    else none
  else none

def deleteAfterMarkup (s : EditState) (pos : Nat) : Except Decline RangeEdit :=
  match (contextNode? s pos).bind fun node => (Frame.around node s.doc).getLast? with
  | none => .error .noContext
  | some inner =>
    let line := s.doc.lineAt pos
    let column := pos - line.start
    let spaceStop := inner.markerStop + if inner.after = [] then 0 else 1
    if spaceStop < column ∧ (line.text.slice spaceStop column).isBlank then
      .ok ⟨[Change.delete (line.start + spaceStop) pos], Range.caret (line.start + spaceStop)⟩
    else
      match if column = spaceStop then deleteMarker? s line inner pos else none with
      | some edit => .ok edit
      | none => .error .notAfterMarkup

/-- The line of `pos` is blank and `pos` is at least two bytes into it, as blanking the marker of an
empty item leaves it. -/
def onBlankedLine (s : EditState) (pos : Nat) : Bool :=
  let line := s.doc.lineAt pos
  2 ≤ pos - line.start && line.text.isBlank

/-- Remove container markup in front of a caret. Surplus spaces after a marker go first; then a list
marker turns into indentation of its width; after indentation or a quote mark, two characters go. -/
def edit (s : EditState) (r : Range) : Except Decline RangeEdit :=
  if ¬r.isCaret then .error .notCaret
  else if ¬s.isMarkdownAt r.head then .error .notMarkdown
  else
    match deleteAfterMarkup s r.head with
    | .ok edit => .ok edit
    | .error why =>
      if (why = .noContext ∨ why = .notAfterMarkup) ∧ onBlankedLine s r.head then
        .ok (deletePair s r.head)
      else .error why

def run (s : EditState) : Except Refusal Transaction :=
  Transaction.byRange s fun r => (edit s r).mapError .declined

end Backspace

end MarkdownEditing

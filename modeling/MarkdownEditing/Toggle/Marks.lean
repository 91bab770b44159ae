import MarkdownEditing.Edit.ByRange

namespace MarkdownEditing

/-- Marks before and after a text. An element that they make is known by its kind and the kind of
its marks. -/
structure MarkPair where
  left : Text
  right : Text
  node : Option (Kind × Kind)
  deriving DecidableEq, Repr

namespace MarkPair

def bold : MarkPair := ⟨['*', '*'], ['*', '*'], some (.strong, .emphasisMark)⟩

def italic : MarkPair := ⟨['*'], ['*'], some (.emphasis, .emphasisMark)⟩

def strikethrough : MarkPair := ⟨['~', '~'], ['~', '~'], some (.strikethrough, .strikethroughMark)⟩

def inlineCode : MarkPair := ⟨['\x60'], ['\x60'], some (.codeSpan, .codeMark)⟩

/-- One dollar sign. Math makes no element of the syntax tree. -/
def inlineMath : MarkPair := ⟨['$'], ['$'], none⟩

def unwrapSurrounding? (pair : MarkPair) (s : EditState) (r : Range) : Option RangeEdit :=
  let outerStop := r.stop + pair.right.size
  if pair.left.size ≤ r.start then
    let outerStart := r.start - pair.left.size
    if outerStop ≤ s.doc.size ∧ s.doc.slice outerStart r.start = pair.left ∧
        s.doc.slice r.stop outerStop = pair.right then
      let selected := s.doc.slice r.start r.stop
      some ⟨[⟨outerStart, outerStop, selected⟩], ⟨outerStart, outerStart + selected.size⟩⟩
    else none
  else none

def element? (pair : MarkPair) (s : EditState) (r : Range) : Option (Place × List Place) :=
  match pair.node with
  | none => none
  | some (kind, mark) =>
    match (Place.root s.tree).covering? r.start r.stop kind with
    | none => none
    | some node =>
      let marks := node.children.filter fun child => !child.isNode && child.kind == mark
      if marks.length = 2 then some (node, marks) else none

/-- Take away the marks of the element around a range. Those of the elements that are `handled`
already are gone. The second part is the span of the element. -/
def unwrapElement? (pair : MarkPair) (s : EditState) (handled : List (Nat × Nat)) (r : Range) :
    Option (RangeEdit × (Nat × Nat)) :=
  match pair.element? s r with
  | none => none
  | some (node, marks) =>
    let span := (node.start, node.stop)
    if handled.contains span then some (⟨[], r⟩, span)
    else
      let deletions := marks.map fun mark => Change.delete mark.start mark.stop
      match ChangeSet.ofChanges deletions s.doc.size with
      | .ok set => some (⟨set.changes, r.map set⟩, span)
      | .error _ => none

def wrap (pair : MarkPair) (s : EditState) (r : Range) : RangeEdit :=
  let selected := s.doc.slice r.start r.stop
  let start := r.start + pair.left.size
  ⟨[⟨r.start, r.stop, pair.left ++ selected ++ pair.right⟩], ⟨start, start + selected.size⟩⟩

/-- The edits of ranges. Marks directly around a range are taken away, else those of the element that
the range lies in, else the range is wrapped. Elements are `handled` once. -/
def edits (pair : MarkPair) (s : EditState) (handled : List (Nat × Nat)) :
    List Range → List RangeEdit
  | [] => []
  | r :: rest =>
    match pair.unwrapSurrounding? s r with
    | some edit => edit :: pair.edits s handled rest
    | none =>
      match pair.unwrapElement? s handled r with
      | some (edit, span) => edit :: pair.edits s (span :: handled) rest
      | none => pair.wrap s r :: pair.edits s handled rest

/-- The edits of ranges by the marks around them alone. -/
def textEdits (pair : MarkPair) (s : EditState) (ranges : List Range) : List RangeEdit :=
  ranges.map fun r => (pair.unwrapSurrounding? s r).getD (pair.wrap s r)

/-- Toggle the marks on every range. If the edits collide only the marks around each range count,
and if these collide too nothing changes. -/
def toggle (pair : MarkPair) (s : EditState) : Transaction :=
  match Transaction.ofEdits s (pair.edits s [] s.selection.ranges) with
  | .ok t => t
  | .error _ =>
    match Transaction.ofEdits s (pair.textEdits s s.selection.ranges) with
    | .ok t => t
    | .error _ => ⟨ChangeSet.empty s.doc.size, none⟩

end MarkPair

end MarkdownEditing
